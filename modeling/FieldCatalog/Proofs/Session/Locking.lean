import FieldCatalog.Proofs.Catalog.Configuration
import FieldCatalog.Proofs.Catalog.Retrying
import FieldCatalog.Proofs.Session.Invariants

/-!
# A write lock that is held elsewhere

While another connection holds the write lock, no transaction begins. What comes before it takes place
all the same: an operation whose arguments do not pass the checks that are made before its transaction
is refused as it always is, and the configuration of a new field is checked by its type. Every other
operation is told that the store is locked, whether it would have found anything to do or not.

So nothing that happens between the moment at which the lock is taken and the moment at which it is
given up leaves a trace in the contents.

## Main definitions

* `Call.Staged`: a call that makes a check and then runs one transaction
* `Mutation.precheck`: what an operation does before its transaction
* `Mutation.Proper`: an operation whose arguments pass
* `Mutation.HeldOff`: what an operation leads to while the lock is held elsewhere

## Main results

* `Mutation.staged_perform`: an operation is its checks, one transaction and an answer
* `Call.Staged.run_of_held`: of such a call only the checks take place
* `Mutation.heldOff_perform`: the outcome of every operation
* `Session.step_held`, `Session.run_held`: one event, and any events, while the lock is held
* `Session.locking_outcomes`: what a lock held elsewhere amounts to
-/

namespace FieldCatalog

/-! ## Transactions that do not begin -/

namespace Call

variable {σ α : Type} {k : Circumstances σ} {h : Holdings σ} {P : Contents → Prop}
  {check : Call σ Unit} {call : Call σ α}

/-- A transaction does not begin while the write lock is held elsewhere. -/
theorem run_mutateWith_of_held (body : Circumstances σ → Transaction σ α)
    (hheld : k.heldElsewhere = true) (h : Holdings σ) :
    (mutateWith body).run k h = (.error .databaseLocked, h) := by
  refine Transaction.retry_of_error (k.attempts - 1) ?_
  simp only [Transaction.attempt, hheld, if_true]

theorem keeps_mutateWith_of_held (body : Circumstances σ → Transaction σ α)
    (hheld : k.heldElsewhere = true) : Keeps P k (mutateWith body) := by
  intro h hp
  rw [run_mutateWith_of_held body hheld]
  exact hp

/-- A statement does not ask the types. -/
theorem types_mutate (body : Int → Statement α) (k : Circumstances σ) (h : Holdings σ) :
    ((mutate body).run k h).2.types = h.types := by
  rw [run_mutate]
  split
  · rfl
  · split <;> rfl

/-- A call that makes a check, runs one transaction with what the check has given, and puts the answer
of the transaction into another form. -/
def Staged (check : Call σ Unit) (call : Call σ α) : Prop :=
  ∃ (β γ : Type) (first : Call σ β) (body : β → Circumstances σ → Transaction σ γ) (answer : γ → α),
    (check = do let _ ← first) ∧
    (call = do
      let b ← first
      let c ← mutateWith (body b)
      return answer c)

/-- While the write lock is held elsewhere, only the check of a call takes place. -/
theorem Staged.run_of_held (hcall : Staged check call) (hheld : k.heldElsewhere = true)
    (h : Holdings σ) :
    call.run k h = match check.run k h with
      | (.ok _, h') => (.error .databaseLocked, h')
      | (.error e, h') => (.error e, h') := by
  obtain ⟨β, γ, first, body, answer, rfl, rfl⟩ := hcall
  rw [run_bind, run_bind]
  rcases first.run k h with ⟨e | b, h'⟩
  · rfl
  · dsimp only
    rw [run_bind, run_mutateWith_of_held (body b) hheld]
    rfl

/-- A call whose check fails is refused, whoever holds the write lock. -/
theorem Staged.run_of_error (hcall : Staged check call) {e : Failure} {h' : Holdings σ}
    (hcheck : check.run k h = (.error e, h')) : call.run k h = (.error e, h') := by
  obtain ⟨β, γ, first, body, answer, rfl, rfl⟩ := hcall
  rw [run_bind] at hcheck ⊢
  rcases hfirst : first.run k h with ⟨e | b, h'⟩ <;> rw [hfirst] at hcheck
  · cases hcheck
    rfl
  · cases hcheck

/-- A call without a check. -/
theorem staged_mutateWith {β : Type} (body : Circumstances σ → Transaction σ β) (answer : β → α) :
    Staged (pure ()) (do
      let b ← mutateWith body
      return answer b) :=
  ⟨Unit, β, pure (), fun _ => body, answer, (pure_bind _ _).symm, (pure_bind _ _).symm⟩

/-- A call that checks its arguments. -/
theorem staged_ofResult {β γ : Type} (result : Except Failure β)
    (body : β → Circumstances σ → Transaction σ γ) (answer : γ → α) :
    Staged (do let _ ← ofResult result)
      ((ofResult result >>= fun b => mutateWith (body b)) >>= fun c => return answer c) :=
  ⟨β, γ, ofResult result, body, answer, rfl, bind_assoc _ _ _⟩

end Call

/-! ## Checks before the transaction -/

namespace Mutation

open Contents Catalog

variable {σ : Type} {k : Circumstances σ} {h : Holdings σ}

/-- What an operation does before its transaction: it checks an area, a name or a draft, and lets the
type of a new field check its configuration. -/
def precheck : Mutation → Call σ Unit
  | .createCategory area _ | .reorder area => do
    let _ ← Call.ofResult area.check
  | .renameCategory _ name => do
    let _ ← Call.ofResult (properName "category" name)
  | .createField _ draft => do
    let draft ← Call.ofResult (properDraft draft)
    let _ ← prepare draft.type draft.configdata
  | .updateField _ amendment =>
    match amendment.name with
    | some name => do let _ ← Call.ofResult (properName "field" name)
    | none => pure ()
  | _ => pure ()

/-- Every operation is its checks, one transaction, and an answer. -/
theorem staged_perform (m : Mutation) : Call.Staged (m.precheck : Call σ Unit) m.perform := by
  cases m with
  | createCategory area name =>
    exact Call.staged_ofResult area.check (fun _ c => .ofStatement (.addCategory area name c.now))
      Outcome.category
  | renameCategory id name =>
    exact Call.staged_ofResult (properName "category" name)
      (fun name c => .ofStatement (.retitleCategory id name c.now)) Outcome.category
  | createField categoryid draft =>
    refine ⟨Draft × String, Field, do
        let draft ← Call.ofResult (properDraft draft)
        let configdata ← prepare draft.type draft.configdata
        return (draft, configdata),
      fun proper c => .ofStatement (.addField categoryid proper.1 proper.2 c.now), .field, ?_, ?_⟩
    · simp only [precheck, bind_assoc, pure_bind]
    · simp only [perform, Catalog.createField, bind_assoc, pure_bind]
      rfl
  | updateField id amendment =>
    obtain ⟨name, description, configdata⟩ := amendment
    cases name with
    | none =>
      exact Call.staged_mutateWith
        (fun c => amend c.registry id ⟨none, description, configdata⟩ c.now) Outcome.field
    | some name =>
      exact Call.staged_ofResult (properName "field" name)
        (fun _ c => amend c.registry id ⟨some name, description, configdata⟩ c.now) Outcome.field
  | deleteCategory id => exact Call.staged_mutateWith _ Outcome.flag
  | moveCategory id direction => exact Call.staged_mutateWith _ Outcome.flag
  | dragCategory id before => exact Call.staged_mutateWith _ fun _ => Outcome.done
  | deleteField id => exact Call.staged_mutateWith _ Outcome.flag
  | moveField id direction => exact Call.staged_mutateWith _ Outcome.flag
  | dragField id categoryid before => exact Call.staged_mutateWith _ fun _ => Outcome.done
  | moveFieldToCategory id categoryid => exact Call.staged_mutateWith _ fun _ => Outcome.done
  | reorder area =>
    exact Call.staged_ofResult area.check (fun _ c => .ofStatement (.renumberArea area c.now))
      Outcome.number

/-- The arguments of an operation pass the checks before its transaction: areas are well named, names
are not blank, short names are well formed, and the type of a new field is known and accepts its
configuration. -/
def Proper (k : Circumstances σ) (h : Holdings σ) : Mutation → Prop
  | .createCategory area _ | .reorder area => area.Named
  | .renameCategory _ name => Text.allBlank name = false
  | .createField _ draft => IsShortname (Text.trim draft.shortname) ∧
      Text.allBlank draft.name = false ∧
      ∃ text types, k.registry.prepare draft.type draft.configdata h.contents.outlook h.types =
        (.ok text, types)
  | .updateField _ amendment => ∀ name ∈ amendment.name, Text.allBlank name = false
  | _ => True

/-- What the checks of an operation lead to. They succeed just for proper arguments, and nothing
changes but what the types remember of the configuration of a new field. -/
structure Prechecked (m : Mutation) (k : Circumstances σ) (h : Holdings σ)
    (outcome : Except Failure Unit × Holdings σ) : Prop where
  proper : m.Proper k h ↔ outcome.1 = .ok ()
  contents : outcome.2.contents = h.contents
  types : (∀ categoryid draft, m ≠ .createField categoryid draft) → outcome.2 = h

theorem prechecked_ofResult {m : Mutation} {α : Type} {result : Except Failure α}
    (hproper : m.Proper k h ↔ ∃ a, result = .ok a) :
    m.Prechecked k h (Call.run (do let _ ← Call.ofResult result) k h) := by
  rw [Call.run_ofResult_bind]
  cases result with
  | error e => exact ⟨hproper.trans (by simp), rfl, fun _ => rfl⟩
  | ok a => exact ⟨hproper.trans (iff_of_true ⟨a, rfl⟩ rfl), rfl, fun _ => rfl⟩

theorem exists_properName_iff (what name : String) :
    Text.allBlank name = false ↔ ∃ trimmed, properName what name = .ok trimmed := by
  cases hname : Text.allBlank name with
  | false => exact iff_of_true rfl ⟨_, properName_of_not_blank what hname⟩
  | true => simp [properName_of_blank what hname]

/-- The types are asked about the configuration of a new field when its short name and its name have
passed. -/
theorem prechecked_createField (categoryid : Id) (draft : Draft) :
    (createField categoryid draft).Prechecked k h
      (((createField categoryid draft).precheck : Call σ Unit).run k h) := by
  rw [precheck, Call.run_ofResult_bind]
  by_cases hs : IsShortname (Text.trim draft.shortname)
  · cases hname : Text.allBlank draft.name with
    | true =>
      rw [properDraft_of_blank hs hname]
      refine ⟨iff_of_false (fun hproper => ?_) (by simp), rfl, fun _ => rfl⟩
      cases hname.symm.trans hproper.2.1
    | false =>
      rw [properDraft_eq_trimmed hs hname]
      show Prechecked _ k h (Call.run (prepare draft.type draft.configdata >>= _) k h)
      rw [Call.run_bind, run_prepare_eq]
      have hproper : (createField categoryid draft).Proper k h ↔ ∃ text types,
          k.registry.prepare draft.type draft.configdata h.contents.outlook h.types =
            (.ok text, types) := ⟨fun hproper => hproper.2.2, fun hok => ⟨hs, hname, hok⟩⟩
      rcases hprepare : k.registry.prepare draft.type draft.configdata h.contents.outlook h.types
        with ⟨e | text, types⟩ <;> rw [hprepare] at hproper
      · refine ⟨iff_of_false (fun hm => ?_) (by simp), rfl, fun hne => absurd rfl (hne _ _)⟩
        obtain ⟨text, types', hok⟩ := hproper.mp hm
        cases hok
      · exact ⟨hproper.trans (iff_of_true ⟨text, types, rfl⟩ rfl), rfl,
          fun hne => absurd rfl (hne _ _)⟩
  · rw [properDraft_of_not_shortname hs]
    exact ⟨iff_of_false (fun hproper => hs hproper.1) (by simp), rfl, fun _ => rfl⟩

theorem prechecked_precheck (m : Mutation) :
    m.Prechecked k h ((m.precheck : Call σ Unit).run k h) := by
  have harea : ∀ area : Area, area.Named ↔ ∃ a, area.check = .ok a := fun area =>
    Area.check_eq_ok_iff.symm.trans ⟨fun ha => ⟨(), ha⟩, fun ⟨_, ha⟩ => ha⟩
  have hnothing : ∀ {m : Mutation}, m.Proper k h → m.Prechecked k h (.ok (), h) := fun hproper =>
    ⟨iff_of_true hproper rfl, rfl, fun _ => rfl⟩
  cases m with
  | createCategory area name => exact prechecked_ofResult (harea area)
  | renameCategory id name => exact prechecked_ofResult (exists_properName_iff "category" name)
  | createField categoryid draft => exact prechecked_createField categoryid draft
  | updateField id amendment =>
    obtain ⟨name, description, configdata⟩ := amendment
    cases name with
    | none => exact hnothing fun name hname => absurd hname (Option.not_mem_none name)
    | some name =>
      refine prechecked_ofResult (Iff.trans ?_ (exists_properName_iff "field" name))
      simp [Proper]
  | deleteCategory id => exact hnothing trivial
  | moveCategory id direction => exact hnothing trivial
  | dragCategory id before => exact hnothing trivial
  | deleteField id => exact hnothing trivial
  | moveField id direction => exact hnothing trivial
  | dragField id categoryid before => exact hnothing trivial
  | moveFieldToCategory id categoryid => exact hnothing trivial
  | reorder area => exact prechecked_ofResult (harea area)

/-- The creation of a field asks the types as often as its checks do: the transaction does not ask
them. -/
theorem types_createField (categoryid : Id) (draft : Draft) :
    ((createField categoryid draft).perform.run k h).2.types =
      (((createField categoryid draft).precheck : Call σ Unit).run k h).2.types := by
  rw [perform, Call.run_bind, Catalog.createField, Call.run_ofResult_bind, precheck,
    Call.run_ofResult_bind]
  cases properDraft draft with
  | error e => rfl
  | ok draft =>
    dsimp only
    rw [Call.run_bind, Call.run_bind]
    rcases (prepare draft.type draft.configdata).run k h with ⟨e | text, h'⟩
    · rfl
    · have htypes := Call.types_mutate (Statement.addField categoryid draft text) k h'
      dsimp only
      rcases hrun : (Call.mutate (Statement.addField categoryid draft text)).run k h' with
        ⟨e | row, h''⟩ <;> rw [hrun] at htypes <;> exact htypes

/-- The checks before a transaction do not ask for the lock. -/
theorem run_precheck_free (m : Mutation) (k : Circumstances σ) (h : Holdings σ) :
    (m.precheck : Call σ Unit).run { k with heldElsewhere := false } h = m.precheck.run k h := by
  cases m with
  | updateField id amendment =>
    obtain ⟨name, description, configdata⟩ := amendment
    cases name <;> rfl
  | _ => rfl

/-- What an operation leads to while the write lock is held elsewhere. If its arguments are proper, it
is told that the store is locked; else it is refused as it is without the lock. The contents stay as
they are, and only the creation of a field makes the types remember anything, which is what they
remember of it without the lock. -/
structure HeldOff (m : Mutation) (k : Circumstances σ) (h : Holdings σ)
    (outcome : Except Failure Outcome × Holdings σ) : Prop where
  locked : m.Proper k h → outcome.1 = .error .databaseLocked
  refused : ¬ m.Proper k h → ∃ e, ((m.precheck : Call σ Unit).run k h).1 = .error e ∧
    outcome.1 = .error e ∧ outcome = m.perform.run { k with heldElsewhere := false } h
  contents : outcome.2.contents = h.contents
  unasked : (∀ categoryid draft, m ≠ .createField categoryid draft) → outcome.2.types = h.types
  asked : ∀ categoryid draft, m = .createField categoryid draft →
    outcome.2.types = (m.perform.run { k with heldElsewhere := false } h).2.types

theorem heldOff_perform (m : Mutation) (hheld : k.heldElsewhere = true) :
    m.HeldOff k h (m.perform.run k h) := by
  have hrun := m.staged_perform.run_of_held hheld h
  have hfree := m.run_precheck_free k h
  obtain ⟨hproper, hcontents, htypes⟩ := m.prechecked_precheck (k := k) (h := h)
  have hasked : ∀ categoryid draft, m = .createField categoryid draft →
      ((m.precheck : Call σ Unit).run k h).2.types =
        (m.perform.run { k with heldElsewhere := false } h).2.types := by
    rintro categoryid draft rfl
    rw [types_createField, hfree]
  rcases hcheck : (m.precheck : Call σ Unit).run k h with ⟨e | _, h'⟩ <;>
    rw [hcheck] at hrun hfree hproper hcontents htypes hasked
  · -- The checks fail, and they do so without the lock as well.
    have hrefused := m.staged_perform.run_of_error hfree
    have hnot : ¬ m.Proper k h := fun hm => by cases hproper.mp hm
    rw [hrun]
    exact ⟨fun hm => absurd hm hnot,
      fun _ => ⟨e, congrArg Prod.fst hcheck, rfl, hrefused.symm⟩, hcontents,
      fun hne => congrArg Holdings.types (htypes hne), hasked⟩
  · rw [hrun]
    exact ⟨fun _ => rfl, fun hm => absurd (hproper.mpr rfl) hm, hcontents,
      fun hne => congrArg Holdings.types (htypes hne), hasked⟩

end Mutation

/-! ## Actions -/

/-- Around the operation of an action there are only checks and reads. -/
theorem Action.keeps_of_held {σ : Type} {k : Circumstances σ} {P : Contents → Prop} (a : Action)
    (hheld : k.heldElsewhere = true) : Call.Keeps P k a.execute := by
  have hlocked : ∀ {α : Type} (body : Circumstances σ → Transaction σ α),
      Call.Keeps P k (Call.mutateWith body) := fun body =>
    Call.keeps_mutateWith_of_held body hheld
  have hread : ∀ {α : Type} (kind : Kind) (id : Id) (f : Area → α),
      Call.Keeps P k (do return f (← Catalog.areaOf kind id)) := fun kind id f =>
    (Catalog.keeps_areaOf id kind).bind fun _ => .pure _
  have happly : Call.Keeps P k a.apply := by
    cases a with
    | createCategory area name =>
      exact ((Call.keeps_ofResult _).bind fun _ => hlocked _).bind fun _ => .pure _
    | renameCategory id name =>
      exact ((Call.keeps_ofResult _).bind fun _ => hlocked _).bind fun _ => .pure _
    | deleteCategory id =>
      exact (Catalog.keeps_areaOf id _).bind fun _ => (hlocked _).bind fun _ => .pure _
    | createField categoryid draft =>
      exact ((Call.keeps_ofResult _).bind fun draft =>
        (Catalog.keeps_prepare _ _).bind fun _ => hlocked _).bind fun field =>
          hread .field field.id _
    | deleteField id =>
      exact (Catalog.keeps_areaOf id _).bind fun _ => (hlocked _).bind fun _ => .pure _
    | moveCategory id direction => exact (hlocked _).bind fun _ => hread .category id _
    | moveField id direction => exact (hlocked _).bind fun _ => hread .field id _
    | dragCategory id before => exact (hlocked _).bind fun _ => hread .category id _
    | dragField id categoryid before => exact (hlocked _).bind fun _ => hread .field id _
  exact happly.bind fun _ => (Call.keeps_query _).bind fun _ => .pure _

/-! ## Sessions -/

namespace Session

variable {σ : Type} {s : Session σ}

/-- Nothing that happens to a file while its lock is held elsewhere changes its rows, and the lock is
held until it is given up. -/
theorem step_held (hfile : s.storage = .file) (hheld : s.heldElsewhere = true) (now : Int)
    {event : Event σ} (hne : event ≠ .releaseLock) :
    (s.step now event).2.storage = .file ∧ (s.step now event).2.heldElsewhere = true ∧
      (s.step now event).2.holdings.contents = s.holdings.contents := by
  cases event with
  | perform m => exact ⟨hfile, hheld, (m.heldOff_perform hheld).contents⟩
  | act a =>
    refine ⟨hfile, hheld, ?_⟩
    show (a.run (s.circumstances now) s.holdings).2.contents = s.holdings.contents
    rw [a.holdings_run]
    exact a.keeps_of_held (P := fun c => c = s.holdings.contents) hheld s.holdings rfl
  | holdLock => exact ⟨hfile, decide_eq_true hfile, rfl⟩
  | releaseLock => exact absurd rfl hne
  | reopen =>
    simp only [step, hfile, hheld, and_self]
  | retune change => exact ⟨hfile, hheld, rfl⟩

/-- Whatever happens to a file while its lock is held elsewhere, its rows stay as they are. -/
theorem run_held {events : List (Int × Event σ)} (hfile : s.storage = .file)
    (hheld : s.heldElsewhere = true) (hne : ∀ event ∈ events, event.2 ≠ .releaseLock) :
    (s.run events).holdings.contents = s.holdings.contents := by
  -- Induction on the events, for all sessions whose lock is held.
  induction events generalizing s with
  | nil => rfl
  | cons event events ih =>
    obtain ⟨hfile', hheld', hsame⟩ := step_held hfile hheld event.1 (hne event List.mem_cons_self)
    rw [run_cons, ih hfile' hheld' fun later hmem => hne later (.tail _ hmem), hsame]

/-- While another connection holds the write lock, every operation is held off, and from the moment at
which the lock of a file is taken to the moment at which it is given up its rows stay as they are,
whatever happens in between. -/
theorem locking_outcomes :
    (∀ (k : Circumstances σ) (h : Holdings σ) (m : Mutation), k.heldElsewhere = true →
      m.HeldOff k h (m.perform.run k h)) ∧
    ∀ (s : Session σ) (events : List (Int × Event σ)) (taken released : Int), s.storage = .file →
      (∀ event ∈ events, event.2 ≠ .releaseLock) →
        (s.run ((taken, .holdLock) :: events ++ [(released, .releaseLock)])).holdings.contents =
          s.holdings.contents := by
  refine ⟨fun k h m hheld => m.heldOff_perform hheld,
    fun s events taken released hfile hne => ?_⟩
  rw [run_append, run_cons]
  show ((s.step taken .holdLock).2.run events).holdings.contents = _
  exact run_held hfile (decide_eq_true hfile) hne

theorem locking_outcomes_sample :
    let k : Circumstances Unit := ⟨.builtin, 3, true, 6⟩
    let h : Holdings Unit := ⟨.sample, ()⟩
    let events : List (Int × Event Unit) :=
      [(7, .perform (.deleteCategory 1)), (8, .act (.dragField 1 (some 2) none)),
        (9, .perform (.updateField 1 ⟨none, some "", none⟩))]
    ((Mutation.moveField 9 .up).perform.run k h).1 = .error .databaseLocked ∧
      (∃ e, ((Mutation.renameCategory 9 " ").perform.run k h).1 = .error e ∧
        (Mutation.renameCategory 9 " ").perform.run k h =
          (Mutation.renameCategory 9 " ").perform.run { k with heldElsewhere := false } h) ∧
      (sample.run ((6, .holdLock) :: events ++ [(10, .releaseLock)])).holdings.contents =
        Contents.sample := by
  intro k h events
  obtain ⟨hheld, hsession⟩ := locking_outcomes (σ := Unit)
  have hevents : ∀ event ∈ events, event.2 ≠ .releaseLock := by
    intro event hmem
    simp only [events, List.mem_cons, List.not_mem_nil, or_false] at hmem
    rcases hmem with rfl | rfl | rfl <;> exact fun he => by cases he
  refine ⟨(hheld k h (.moveField 9 .up) rfl).locked trivial, ?_,
    hsession sample events 6 10 rfl hevents⟩
  have hblank : ¬ (Mutation.renameCategory 9 " ").Proper k h := by
    show ¬ Text.allBlank " " = false
    decide
  obtain ⟨e, -, he, hsame⟩ := (hheld k h (.renameCategory 9 " ") rfl).refused hblank
  exact ⟨e, he, hsame⟩

end Session

end FieldCatalog
