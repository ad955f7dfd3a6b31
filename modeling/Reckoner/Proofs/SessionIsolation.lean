import Mathlib.Data.List.Forall2
import Reckoner.Proofs.CopiedScope
import Reckoner.Proofs.SessionConduct

/-! Isolation of sessions. Every session of a workspace has a frame of its own, without a parent, and the
scope that a session which was never copied would come to by the same requests. A copy is made just if the copier
gets along with the stack. -/

namespace Reckoner

/-- What a session has gone through: its settings, the precision with which the first of those it descends from was
created, and the requests that were carried out by it or by those it was copied from, the newest first, each with the
settings of its time. -/
structure History where
  settings : Settings
  precision : Nat
  past : List (Settings × Request)

/-- The settings of a session that works with the precision of the history from the start. -/
def History.freshSettings (h : History) : Settings :=
  { h.settings with precision := h.precision }

/-- Numbers are shown in the same way. -/
def Settings.ShowsLike (a b : Settings) : Prop :=
  a.digits = b.digits ∧ a.threshold = b.threshold

/-- The history of each session. -/
def Chronicle := String → Option History

def Chronicle.put (c : Chronicle) (name : String) (h : History) : Chronicle :=
  fun other => if other = name then some h else c other

namespace Step

/-- The session that a step opens or asks. -/
def subject : Step → String
  | create target _ => target
  | ask source _ => source
  | fork _ target => target
  | transfer _ target _ => target

/-- What a step adds to the histories, given the reply to it. A copy takes over the history of its original. -/
def chronicle (c : Chronicle) : Step → Reply → Chronicle
  | create target settings, .opened _ => c.put target ⟨settings, settings.bits, []⟩
  | ask source request, .answered _ =>
    match c source with
    | some h => c.put source { h with past := (h.settings, request) :: h.past }
    | none => c
  | fork source target, .opened _ =>
    match c source with
    | some h => c.put target h
    | none => c
  | transfer source target settings, .opened _ =>
    match c source with
    | some h => c.put target { h with settings }
    | none => c
  | _, _ => c

end Step

/-- The histories after some more steps. -/
def Workspace.chronicle (w : Workspace) (c : Chronicle) : List Step → Chronicle
  | [] => c
  | step :: rest => (w.perform step).2.chronicle (step.chronicle c (w.perform step).1) rest

namespace Session

/-- The store after a session has carried out some requests, the newest of them first in the list, each
with settings of its own. -/
def replay (s : Session) (store : Store) : List (Settings × Request) → Store
  | [] => store
  | (settings, request) :: past =>
    (Session.respond { s with settings } request (s.replay store past)).2

/-- The same requests lead to the same bindings with other settings than those of their time: in the same
debug mode, unless an outline can be shown anyway, and with numbers shown in the same way, unless a request
is no batch or no number keeps it from being carried out to its end. -/
inductive Admits (fresh : Session) (blank : Store) :
    List (Settings × Request) → List (Settings × Request) → Prop where
  | nil : Admits fresh blank [] []
  | cons {settings was : Settings} {request : Request} {now past : List (Settings × Request)}
    (hmode : settings.debug = was.debug ∨ request.Showable fresh.machine)
    (hshows : settings.ShowsLike was ∨ (∀ text, request ≠ .runAll text) ∨
      ∀ chosen, chosen = settings ∨ chosen = was →
        (Session.respond { fresh with settings := chosen } request (fresh.replay blank now)).1.WithinLimits)
    (hearlier : Admits fresh blank now past) :
    Admits fresh blank ((settings, request) :: now) ((was, request) :: past)

private theorem Admits.refl (fresh : Session) (blank : Store) (past : List (Settings × Request)) :
    Admits fresh blank past past := by
  induction past with
  | nil => exact .nil
  | cons step past ih => exact .cons (.inl rfl) (.inl ⟨rfl, rfl⟩) ih

/-- A session has the bindings of a new session on the same stack that has carried out the requests of a history, and
it answers every request as that one does. -/
def Repeats (stack : Nat) (store : Store) (s : Session) (h : History) : Prop :=
  s.settings = h.settings ∧ s.precision = h.precision ∧
    ∃ fresh blank, Session.create stack h.freshSettings .empty = .ok (fresh, blank) ∧
      ∀ past, Admits fresh blank past h.past →
        store.scope s.frame = (fresh.replay blank past).scope fresh.frame ∧
        ∀ request, (s.respond request store).1 =
          (fresh.respond request (fresh.replay blank past)).1

/-- A session stands where its history leads, in a frame without a parent. -/
structure Continues (stack : Nat) (store : Store) (s : Session) (h : History) : Prop where
  onStack : s.stack = stack
  settings : s.settings = h.settings
  precision : s.precision = h.precision
  valid : h.settings.Valid
  fresh : 2 ≤ h.precision
  root : (store.frameAt s.frame).parent = none
  alike : ∀ past,
    let (fresh, blank) := Session.start stack h.freshSettings .empty
    Admits fresh blank past h.past → store.Alike s.frame (fresh.replay blank past) fresh.frame

theorem Continues.alike_past {stack : Nat} {store : Store} {s : Session} {h : History}
    (hs : s.Continues stack store h) :
    store.Alike s.frame
      ((Session.start stack h.freshSettings .empty).1.replay (Session.start stack h.freshSettings .empty).2 h.past)
      (Session.start stack h.freshSettings .empty).1.frame :=
  hs.alike h.past (.refl _ _ h.past)

theorem Continues.machine {stack : Nat} {store : Store} {s : Session} {h : History}
    (hs : s.Continues stack store h) : s.machine = ⟨h.precision, stack⟩ := by
  rw [Session.machine, hs.precision, hs.onStack]

private theorem Continues.valid_freshSettings {stack : Nat} {store : Store} {s : Session} {h : History}
    (hs : s.Continues stack store h) : h.freshSettings.Valid :=
  ⟨Int.ofNat_le.2 hs.fresh, hs.valid.2⟩

theorem Continues.lt {stack : Nat} {store : Store} {s : Session} {h : History} (hs : s.Continues stack store h) :
    s.frame < store.size :=
  hs.alike_past.lt

theorem Continues.one_le {stack : Nat} {store : Store} {s : Session} {h : History} (hs : s.Continues stack store h) :
    1 ≤ s.precision :=
  hs.precision ▸ Nat.le_of_succ_le hs.fresh

theorem Continues.linked {stack : Nat} {store : Store} {s : Session} {h : History} (hs : s.Continues stack store h) :
    store.Linked :=
  hs.alike_past.linked

/-- A session goes on in every store that has its frame and is linked. -/
theorem Continues.of_frame {stack : Nat} {store after : Store} {s : Session} {h : History}
    (hs : s.Continues stack store h)
    (hl : after.Linked) (hsize : store.size ≤ after.size)
    (hf : after.frames[s.frame]? = store.frames[s.frame]?) : s.Continues stack after h := by
  have hfr : after.frameAt s.frame = store.frameAt s.frame := by
    simp only [Store.frameAt, hf]
  have hsc : after.scope s.frame = store.scope s.frame := by
    rw [Store.scope_of_root (Nat.lt_of_lt_of_le hs.lt hsize) (hfr ▸ hs.root),
      Store.scope_of_root hs.lt hs.root, hfr]
  refine ⟨hs.onStack, hs.settings, hs.precision, hs.valid, hs.fresh, hfr ▸ hs.root, fun past hp => ?_⟩
  obtain ⟨-, hl', hlt, hlt', hscope⟩ := hs.alike past hp
  exact ⟨hl, hl', Nat.lt_of_lt_of_le hlt hsize, hlt', hsc.trans hscope⟩

private theorem start_continues (stack : Nat) {store : Store} (hl : store.Linked) {settings : Settings}
    (hv : settings.Valid) :
    (Session.start stack settings store).1.Continues stack (Session.start stack settings store).2
      ⟨settings, settings.bits, []⟩ := by
  have hroot (store : Store) : (store.add {}).frameAt store.size = {} := by
    simp [Store.frameAt, Store.add, Store.size]
  have hfresh : 2 ≤ settings.bits := by
    have := hv.1
    rw [Settings.bits]
    omega
  refine ⟨rfl, rfl, rfl, hv, hfresh, ?_, ?_⟩
  · exact congrArg Frame.parent (hroot store)
  · intro past hpast
    cases hpast
    refine ⟨hl.add [] none, Store.linked_empty.add [] none, ?_, ?_, ?_⟩
    · exact (store.size_add {}).symm ▸ Nat.lt_succ_self _
    · exact Nat.zero_lt_one
    · change (store.add {}).scope store.size = (Store.empty.add {}).scope Store.empty.size
      rw [Store.scope_of_root (by rw [Store.size_add]; omega) (by rw [hroot]),
        Store.scope_of_root (by rw [Store.size_add]; omega) (by rw [hroot]), hroot, hroot]

/-- The settings of a session make no difference to a replay, as every request comes with its own. -/
theorem replay_withSettings (s : Session) (settings : Settings) (store : Store)
    (past : List (Settings × Request)) :
    Session.replay { s with settings } store past = s.replay store past := by
  induction past with
  | nil => rfl
  | cons step past ih => rw [replay, replay, ih]

private theorem Admits.withSettings {s : Session} {settings : Settings} {store : Store}
    {now past : List (Settings × Request)} (h : Admits { s with settings } store now past) :
    Admits s store now past := by
  induction h with
  | nil => exact .nil
  | cons hmode hshows _ ih =>
    rw [replay_withSettings] at hshows
    exact .cons hmode hshows ih

/-- A copy of a session continues its history, with whatever settings. -/
theorem Continues.copy {stack : Nat} {store : Store} {s : Session} {h : History} (hs : s.Continues stack store h)
    {settings : Settings} (hv : settings.Valid) :
    (s.copied settings store).1.Continues stack (s.copied settings store).2 { h with settings } := by
  have hl := hs.linked
  have hmem : s.frame ∈ store.places s.frame := Store.mem_places_self
  have hreach := (Store.mem_reachable hl hs.lt).2 hmem
  refine ⟨hs.onStack, rfl, hs.precision, hv, hs.fresh, ?_, fun past hp => ?_⟩
  · rw [copied, Store.frameAt_copy hl hs.lt hmem]
    simp [Frame.relocate, hs.root]
  · let fresh := (Session.start stack h.freshSettings .empty).1
    let other : History := { h with settings }
    have hp : Admits { fresh with settings := other.freshSettings } _ past h.past := hp
    obtain ⟨-, hl', -, hlt', hscope⟩ := hs.alike past hp.withSettings
    have hreplay := fresh.replay_withSettings other.freshSettings (Session.start stack h.freshSettings .empty).2 past
    have hcopy : (store.copy s.frame).Alike (store.placeInCopy s.frame s.frame)
        (fresh.replay (Session.start stack h.freshSettings .empty).2 past) fresh.frame :=
      ⟨hl.copy hs.lt, hl', Store.placeInCopy_lt hreach, hlt', (Store.scope_copy hl hs.lt hmem).trans hscope⟩
    exact hreplay ▸ hcopy

theorem akin_self (s : Session) : Akin True True s s :=
  ⟨rfl, fun _ => ⟨rfl, rfl⟩, fun _ => rfl⟩

/-- A session leaves a linked store linked, and all frames but its own unchanged. -/
theorem respond_within (s : Session) (request : Request) {store : Store} (hl : store.Linked)
    (hs : s.frame < store.size) :
    (s.respond request store).2.Linked ∧ store.Within s.frame (s.respond request store).2 := by
  obtain ⟨-, ha, hw⟩ := matches_respond s.akin_self request (.inl rfl) store store ⟨hl, hl, hs, hs, rfl⟩
    (.inl trivial)
  exact ⟨ha.linked, hw⟩

/-- A request that a session carries out becomes the newest of its history. -/
theorem Continues.respond {stack : Nat} {store : Store} {s : Session} {h : History} (hs : s.Continues stack store h)
    (request : Request) :
    s.Continues stack (s.respond request store).2 { h with past := (h.settings, request) :: h.past } := by
  have hw := (s.respond_within request hs.linked hs.lt).2
  refine ⟨hs.onStack, hs.settings, hs.precision, hs.valid, hs.fresh, hw.parent.trans hs.root, fun past hp => ?_⟩
  cases hp with
  | @cons settings _ _ earlier _ hmode hshows hearlier =>
    have halike := hs.alike earlier hearlier
    have hd : s.settings.debug = settings.debug ∨ request.Showable s.machine := by
      rw [hs.settings, hs.machine]
      exact hmode.imp Eq.symm id
    have hakin : Akin (s.settings.ShowsLike settings) False s
        { (Session.start stack h.freshSettings .empty).1 with settings } := ⟨hs.machine, id, False.elim⟩
    refine alike_respond hakin request hd halike ?_
    rw [hs.settings]
    refine hshows.imp (fun h => ⟨h.1.symm, h.2.symm⟩) (Or.imp id fun hlimits => ?_)
    -- With its own settings the new session keeps within the limits only if this one does.
    have hsame : Akin True True s { (Session.start stack h.freshSettings .empty).1 with settings := h.settings } :=
      ⟨hs.machine, fun _ => by rw [hs.settings]; exact ⟨rfl, rfl⟩, fun _ => by rw [hs.settings]⟩
    have hm := matches_respond hsame request (.inl (hsame.shown trivial)) _ _ halike (.inl trivial)
    have heq := hm.1.eq trivial trivial
    exact ⟨heq.symm ▸ hlimits h.settings (.inr rfl), hlimits settings (.inl rfl)⟩

private theorem Continues.repeats {stack : Nat} {store : Store} {s : Session} {h : History}
    (hs : s.Continues stack store h) :
    s.Repeats stack store h := by
  refine ⟨hs.settings, hs.precision, _, _, ?_, fun past hp => ⟨(hs.alike past hp).scope, fun request => ?_⟩⟩
  · rw [Session.create, validated_of_valid hs.valid_freshSettings]
    rfl
  · have hakin : Akin True True s (Session.start stack h.freshSettings .empty).1 :=
      ⟨hs.machine, fun _ => by rw [hs.settings]; exact ⟨rfl, rfl⟩, fun _ => by rw [hs.settings]; rfl⟩
    have hm := matches_respond hakin request (.inl (hakin.shown trivial))
    exact (hm _ _ (hs.alike past hp) (.inl trivial)).1.eq trivial trivial

end Session

namespace Workspace
variable {w : Workspace} {c : Chronicle} {name : String} {s : Session}

theorem find?_put (w : Workspace) (name : String) (opened : Session × Store) (other : String) :
    (w.put name opened).find? other = if other = name then some opened.1 else w.find? other :=
  Store.lookup_put name opened.1 w.sessions other

theorem perform_ask (hs : w.find? name = some s) (request : Request) :
    w.perform (.ask name request) =
      (.answered (s.respond request w.store).1, { w with store := (s.respond request w.store).2 }) := by
  simp only [perform, hs]

theorem perform_fork (hs : w.find? name = some s) (target : String) :
    w.perform (.fork name target) = w.putIfOpened target (s.copyBy .cloning s.settings w.store) := by
  simp only [perform, hs, Session.fork_eq]

theorem perform_transfer (hs : w.find? name = some s) (target : String) (settings : Settings) :
    w.perform (.transfer name target settings) =
      w.putIfOpened target (s.copyBy .pickling settings w.store) := by
  simp only [perform, hs, Session.transfer_eq]

/-- Every session continues its history, in a frame that no other session has. -/
structure Tracks (w : Workspace) (c : Chronicle) : Prop where
  linked : w.store.Linked
  continues : ∀ name, Option.Rel (Session.Continues w.stack w.store) (w.find? name) (c name)
  apart : ∀ name other s t, w.find? name = some s → w.find? other = some t → s.frame = t.frame →
    name = other

theorem Tracks.of_find? (h : w.Tracks c) (hs : w.find? name = some s) :
    ∃ past, c name = some past ∧ s.Continues w.stack w.store past := by
  have hr := h.continues name
  rw [hs] at hr
  cases hc : c name with
  | none => rw [hc] at hr; cases hr
  | some past =>
    rw [hc] at hr
    cases hr with
    | some hr => exact ⟨past, rfl, hr⟩

private theorem Tracks.of_find?_none (h : w.Tracks c) (hs : w.find? name = none) : c name = none := by
  have hr := h.continues name
  rw [hs] at hr
  generalize c name = past at hr
  cases hr
  rfl

theorem tracks_empty (stack : Nat) : (empty stack).Tracks fun _ => none :=
  ⟨Store.linked_empty, fun _ => .none, nofun⟩

/-- Sessions whose frames have not changed continue their histories. -/
theorem Tracks.continues_of_frames (h : w.Tracks c) {after : Store} (hl : after.Linked)
    (hsize : w.store.size ≤ after.size) {other : String}
    (hf : ∀ t, w.find? other = some t → t.frame < w.store.size →
      after.frames[t.frame]? = w.store.frames[t.frame]?) :
    Option.Rel (Session.Continues w.stack after) (w.find? other) (c other) := by
  have hr := h.continues other
  cases ht : w.find? other with
  | none =>
    rw [ht] at hr
    generalize c other = past at hr
    cases hr
    exact .none
  | some t =>
    obtain ⟨past, hp, hc⟩ := h.of_find? ht
    rw [hp]
    exact .some (hc.of_frame hl hsize (hf t ht hc.lt))

/-- A session that is opened in a new frame continues its history, and so do the others. -/
theorem Tracks.put (h : w.Tracks c) {opened : Session × Store} {past : History}
    (hk : w.store.Keeps opened.2) (hl : opened.2.Linked) (hnew : w.store.size ≤ opened.1.frame)
    (hc : opened.1.Continues w.stack opened.2 past) (name : String) :
    (w.put name opened).Tracks (c.put name past) := by
  have hold {other : String} {t : Session} (ht : w.find? other = some t) :
      t.frame ≠ opened.1.frame := by
    obtain ⟨past, -, hc⟩ := h.of_find? ht
    exact Nat.ne_of_lt (Nat.lt_of_lt_of_le hc.lt hnew)
  refine ⟨hl, fun other => ?_, fun first second s t hs ht he => ?_⟩
  · rw [find?_put, Chronicle.put]
    split
    · exact .some hc
    · exact h.continues_of_frames hl hk.size_le fun t _ hlt => hk _ hlt
  · rw [find?_put] at hs ht
    split at hs <;> split at ht
    · rename_i hf hsec
      exact hf.trans hsec.symm
    · obtain rfl := Option.some.inj hs
      exact absurd he.symm (hold ht)
    · obtain rfl := Option.some.inj ht
      exact absurd he (hold hs)
    · exact h.apart first second s t hs ht he

/-- A session that carries out a request continues its history, and so do the others. -/
theorem Tracks.ask (h : w.Tracks c) {past : History} (hs : w.find? name = some s)
    (hp : c name = some past) (request : Request) :
    ({ w with store := (s.respond request w.store).2 } : Workspace).Tracks
      (c.put name { past with past := (past.settings, request) :: past.past }) := by
  obtain ⟨past', hp', hc⟩ := h.of_find? hs
  obtain rfl := Option.some.inj (hp.symm.trans hp')
  obtain ⟨hl, hw⟩ := s.respond_within request h.linked hc.lt
  refine ⟨hl, fun other => ?_, h.apart⟩
  change Option.Rel _ (w.find? other) _
  rw [Chronicle.put]
  split
  · rename_i he
    rw [he, hs]
    exact .some (hc.respond request)
  · rename_i hne
    refine h.continues_of_frames hl hw.size_le fun t ht hlt => hw.keeps _ hlt fun hfr => ?_
    exact hne (h.apart other name t s ht hs hfr)

/-- A copy continues the history of its original. -/
theorem Tracks.putCopy (h : w.Tracks c) {past : History} (hs : s.Continues w.stack w.store past)
    {settings : Settings} (hv : settings.Valid) (name : String) :
    (w.put name (s.copied settings w.store)).Tracks (c.put name { past with settings }) :=
  h.put (w.store.keeps_copy s.frame) (h.linked.copy hs.lt) (Nat.le_add_right _ _) (hs.copy hv) name

/-- Under its name a copy that is made continues the history of its original; one that is refused is nowhere. -/
theorem Tracks.copyBy (h : w.Tracks c) {past : History} (hs : s.Continues w.stack w.store past) (copier : Copier)
    (settings : Settings) (name : String) :
    (∃ copy, w.putIfOpened name (s.copyBy copier settings w.store) = (.opened copy.1, w.put name copy) ∧
      (w.put name copy).Tracks (c.put name { past with settings })) ∨
    ∃ why, w.putIfOpened name (s.copyBy copier settings w.store) = (.refused why, w) := by
  cases hcopy : s.copyBy copier settings w.store with
  | error why => exact .inr ⟨why, rfl⟩
  | ok copy =>
    obtain ⟨-, hvalid, rfl⟩ := Session.copyBy_eq_ok_iff.1 hcopy
    exact .inl ⟨_, rfl, h.putCopy hs hvalid name⟩

theorem Tracks.perform (h : w.Tracks c) (step : Step) :
    (w.perform step).2.Tracks (step.chronicle c (w.perform step).1) := by
  cases step with
  | create target settings =>
    rw [Workspace.perform]
    cases hcreate : Session.create w.stack settings w.store with
    | error why => exact h
    | ok opened =>
      obtain ⟨hvalid, rfl⟩ := Session.create_eq_ok_iff.1 hcreate
      exact h.put (w.store.keeps_add {}) (h.linked.add [] none) (Nat.le_refl _)
        (Session.start_continues w.stack h.linked hvalid) target
  | ask source request =>
    cases hs : w.find? source with
    | none => simpa only [Workspace.perform, hs, Step.chronicle] using h
    | some s =>
      obtain ⟨past, hc, -⟩ := h.of_find? hs
      simp only [perform_ask hs, Step.chronicle, hc]
      exact h.ask hs hc request
  | fork source target =>
    cases hs : w.find? source with
    | none => simpa only [Workspace.perform, hs, Step.chronicle] using h
    | some s =>
      obtain ⟨past, hc, hcont⟩ := h.of_find? hs
      have hp : { past with settings := s.settings } = past := by rw [hcont.settings]
      rw [perform_fork hs]
      obtain ⟨copy, heq, htracks⟩ | ⟨why, heq⟩ := h.copyBy hcont .cloning s.settings target
      · simpa only [heq, Step.chronicle, hc, hp] using htracks
      · simpa only [heq, Step.chronicle] using h
  | transfer source target settings =>
    cases hs : w.find? source with
    | none => simpa only [Workspace.perform, hs, Step.chronicle] using h
    | some s =>
      obtain ⟨past, hc, hcont⟩ := h.of_find? hs
      rw [perform_transfer hs]
      obtain ⟨copy, heq, htracks⟩ | ⟨why, heq⟩ := h.copyBy hcont .pickling settings target
      · simpa only [heq, Step.chronicle, hc] using htracks
      · simpa only [heq, Step.chronicle] using h

/-- All sessions run on the same stack. -/
theorem stack_perform (w : Workspace) (step : Step) : (w.perform step).2.stack = w.stack := by
  have hput (name : String) (opened : Except Refusal (Session × Store)) :
      (w.putIfOpened name opened).2.stack = w.stack := by
    cases opened <;> rfl
  cases step with
  | create target settings => exact hput target _
  | ask source request | fork source target | transfer source target settings =>
    rw [perform]
    cases w.find? source with
    | none => rfl
    | some s => first | rfl | exact hput target _

private theorem stack_performAll (w : Workspace) (steps : List Step) : (w.performAll steps).stack = w.stack := by
  induction steps generalizing w with
  | nil => rfl
  | cons step rest ih => exact (ih _).trans (w.stack_perform step)

theorem Tracks.performAll (h : w.Tracks c) (steps : List Step) :
    (w.performAll steps).Tracks (w.chronicle c steps) := by
  induction steps generalizing w c with
  | nil => exact h
  | cons step rest ih => exact ih (h.perform step)

/-- A step leaves every session but its subject in place. -/
theorem find?_perform_of_ne {step : Step} (hne : step.subject ≠ name) :
    (w.perform step).2.find? name = w.find? name := by
  have hput (made : Except Refusal (Session × Store)) :
      (w.putIfOpened step.subject made).2.find? name = w.find? name := by
    cases made with
    | error why => rfl
    | ok opened => exact (w.find?_put step.subject opened name).trans (if_neg hne.symm)
  cases step with
  | create target settings => exact hput _
  | ask source request | fork source target | transfer source target settings =>
    rw [perform]
    cases w.find? source with
    | none => rfl
    | some s => first | rfl | exact hput _

/-- A step does not change the scope of a session that is not its subject. -/
theorem Tracks.chain_perform_of_ne (h : w.Tracks c) {step : Step} (hne : step.subject ≠ name)
    (hs : w.find? name = some s) : (w.perform step).2.store.chain s.frame = w.store.chain s.frame := by
  obtain ⟨past, -, hcont⟩ := h.of_find? hs
  have hcopy (t : Session) (copier : Copier) (settings : Settings) (target : String) :
      (w.putIfOpened target (t.copyBy copier settings w.store)).2.store.chain s.frame =
        w.store.chain s.frame := by
    cases hmade : t.copyBy copier settings w.store with
    | error why => rfl
    | ok copy =>
      obtain ⟨-, -, rfl⟩ := Session.copyBy_eq_ok_iff.1 hmade
      exact (w.store.keeps_copy t.frame).chain hcont.lt
  cases step with
  | create target settings =>
    rw [Workspace.perform]
    cases hcreate : Session.create w.stack settings w.store with
    | error why => rfl
    | ok opened =>
      obtain ⟨-, rfl⟩ := Session.create_eq_ok_iff.1 hcreate
      exact (w.store.keeps_add {}).chain hcont.lt
  | ask source request =>
    cases ht : w.find? source with
    | none => simp only [Workspace.perform, ht]
    | some t =>
      obtain ⟨earlier, -, hother⟩ := h.of_find? ht
      rw [perform_ask ht]
      have hw := (t.respond_within request h.linked hother.lt).2
      exact hw.chain hcont.lt (fun he => hne (h.apart source name t s ht hs he.symm)) hcont.root
  | fork source target =>
    cases ht : w.find? source with
    | none => simp only [Workspace.perform, ht]
    | some t => exact perform_fork ht target ▸ hcopy t .cloning t.settings target
  | transfer source target settings =>
    cases ht : w.find? source with
    | none => simp only [Workspace.perform, ht]
    | some t => exact perform_transfer ht target settings ▸ hcopy t .pickling settings target

/-- A session was opened under a name, in a new frame, and has the bindings and the precision of another. -/
def Opens (w : Workspace) (s : Session) (settings : Settings) (target : String) :
    Reply × Workspace → Prop
  | (.opened copy, after) => after.find? target = some copy ∧ copy.settings = settings ∧
      copy.precision = s.precision ∧ w.store.size ≤ copy.frame ∧
      after.store.scope copy.frame = w.store.scope s.frame
  | _ => False

/-- A copier makes a copy of a session under a name if the stack has room for the calls that takes, and otherwise
nothing happens. -/
def Copies (w : Workspace) (copier : Copier) (s : Session) (settings : Settings) (target : String)
    (result : Reply × Workspace) : Prop :=
  if w.store.copyDepth copier s.frame ≤ s.machine.copyingCalls then w.Opens s settings target result
  else result = (.refused (.failed .tooDeep), w)

private theorem Tracks.copies (h : w.Tracks c) (hs : w.find? name = some s) (copier : Copier) {settings : Settings}
    (hv : settings.Valid) (target : String) :
    w.Copies copier s settings target (w.putIfOpened target (s.copyBy copier settings w.store)) := by
  obtain ⟨past, -, hcont⟩ := h.of_find? hs
  rw [Copies, Session.copyBy, Session.validated_of_valid hv]
  split
  · refine ⟨?_, rfl, rfl, Nat.le_add_right _ _, ?_⟩
    · rw [find?_put, if_pos rfl]
    · exact Store.scope_copy h.linked hcont.lt Store.mem_places_self
  · rfl

end Workspace

/-- A session was opened. -/
def Reply.isOpened : Reply → Bool
  | .opened _ => true
  | _ => false

private theorem Reply.exists_eq_opened {reply : Reply} (h : reply.isOpened = true) : ∃ s, reply = .opened s := by
  cases reply with
  | opened s => exact ⟨s, rfl⟩
  | answered outcome | refused why | unknown => cases h

/-- A copy that could be made takes over the one request of its original. -/
theorem Workspace.chronicle_copied (stack : Nat) {settings : Settings} (other : Settings) (request : Request)
    (name copy : String) (hvalid : settings.Valid)
    (hcopied : (((empty stack).performAll [.create name settings, .ask name request]).perform
      (.transfer name copy other)).1.isOpened = true) :
    (empty stack).chronicle (fun _ => none) [.create name settings, .ask name request, .transfer name copy other] copy =
      some ⟨other, settings.bits, [(settings, request)]⟩ := by
  let opened := Session.start stack settings Store.empty
  have hcreate : (empty stack).perform (.create name settings) =
      (.opened opened.1, (empty stack).put name opened) := by
    rw [perform, Session.create_eq_ok_iff.2 ⟨hvalid, rfl⟩]
    rfl
  have hfind : ((empty stack).put name opened).find? name = some opened.1 := by
    rw [find?_put, if_pos rfl]
  have hask : ∃ outcome, (((empty stack).put name opened).perform (.ask name request)).1 = .answered outcome := by
    rw [perform, hfind]
    exact ⟨_, rfl⟩
  obtain ⟨outcome, hask⟩ := hask
  obtain ⟨copied, hcopied⟩ := Reply.exists_eq_opened hcopied
  simp only [performAll, List.foldl_cons, List.foldl_nil, hcreate] at hcopied
  simp only [chronicle, hcreate, Step.chronicle, Chronicle.put, hask, hcopied, if_true]

end Reckoner
