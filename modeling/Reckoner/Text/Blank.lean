/-!
Blank characters. Two classes matter: the Unicode white space that ends a name and is trimmed from
both ends of a line, and the four layout characters that may stand between tokens.
-/

namespace Reckoner.Text

/-- The white space of Unicode together with the four separator controls. -/
def isBlank (c : Char) : Bool :=
  let n := c.toNat
  (0x09 ≤ n && n ≤ 0x0D) || (0x1C ≤ n && n ≤ 0x20) || n == 0x85 || n == 0xA0 || n == 0x1680 ||
    (0x2000 ≤ n && n ≤ 0x200A) || n == 0x2028 || n == 0x2029 || n == 0x202F || n == 0x205F ||
    n == 0x3000

/-- Space, line feed, tab and carriage return: the only characters skipped before a token. -/
def isLayout (c : Char) : Bool :=
  c == ' ' || c == '\n' || c == '\t' || c == '\r'

theorem isBlank_of_isLayout {c : Char} (h : isLayout c = true) : isBlank c = true := by
  simp only [isLayout, Bool.or_eq_true, beq_iff_eq] at h
  rcases h with ((rfl | rfl) | rfl) | rfl <;> decide

def skipLayout (cs : List Char) : List Char :=
  cs.dropWhile isLayout

theorem skipLayout_cons_of_pos {c : Char} (h : isLayout c = true) (cs : List Char) :
    skipLayout (c :: cs) = skipLayout cs := by
  rw [skipLayout, List.dropWhile_cons, if_pos h]
  rfl

theorem skipLayout_cons_of_neg {c : Char} (h : isLayout c = false) (cs : List Char) :
    skipLayout (c :: cs) = c :: cs := by
  rw [skipLayout, List.dropWhile_cons, if_neg (ne_true_of_eq_false h)]

theorem skipLayout_append {layout : List Char} (h : ∀ c, c ∈ layout → isLayout c = true)
    (cs : List Char) : skipLayout (layout ++ cs) = skipLayout cs :=
  List.dropWhile_append_of_pos h

/-- Layout before a word is skipped, the word is not. -/
theorem skipLayout_append_word {layout word : List Char}
    (hl : ∀ c, c ∈ layout → isLayout c = true) (hne : word ≠ [])
    (hword : ∀ c, c ∈ word → isLayout c = false) (rest : List Char) :
    skipLayout (layout ++ (word ++ rest)) = word ++ rest := by
  rw [skipLayout_append hl]
  cases word with
  | nil => exact absurd rfl hne
  | cons c word => exact skipLayout_cons_of_neg (hword c List.mem_cons_self) _

theorem skipLayout_eq_nil_iff {cs : List Char} :
    skipLayout cs = [] ↔ ∀ c, c ∈ cs → isLayout c = true := by
  induction cs with
  | nil => exact ⟨nofun, fun _ => rfl⟩
  | cons c cs ih =>
    cases h : isLayout c with
    | true => rw [skipLayout_cons_of_pos h, ih]; simp [h]
    | false => rw [skipLayout_cons_of_neg h]; simp [h]

/-- The characters without the blanks at either end. -/
def trimChars (cs : List Char) : List Char :=
  ((cs.dropWhile isBlank).reverse.dropWhile isBlank).reverse

theorem trimChars_eq_self {cs : List Char} (h : ∀ c, c ∈ cs → isBlank c = false) :
    trimChars cs = cs := by
  have hdrop {cs : List Char} (h : ∀ c, c ∈ cs → isBlank c = false) : cs.dropWhile isBlank = cs := by
    cases cs with
    | nil => rfl
    | cons c cs => rw [List.dropWhile_cons, if_neg (ne_true_of_eq_false (h c List.mem_cons_self))]
  rw [trimChars, hdrop h, hdrop (fun c hc => h c (List.mem_reverse.1 hc)), List.reverse_reverse]

def trim (s : String) : String :=
  String.ofList (trimChars s.toList)

end Reckoner.Text
