import FieldCatalog.FieldType.Probe
import FieldCatalog.Proofs.Catalog.Creation
import Mathlib.Logic.Function.Iterate

/-!
# Repeated attempts

A transaction that fails for a passing reason is tried again, as often as the circumstances allow, and
at least once. Only the last attempt can leave something in the contents, and it finds them as the
first one did; what the field types remember goes on from one attempt to the next.

A field is checked at different moments. The configuration of a new field is checked before the
transaction, and so once; that of a stored field is checked in the transaction, and so in every
attempt.

## Main definitions

* `Transaction.holdingsAfter`: what a number of attempts leaves behind
* `Transaction.Stops`: where a repeated transaction comes to an end
* `FieldType.FailsNext`: a type whose next checks of a configuration fail
* `FieldType.Counts`: a type that counts its checks

## Main results

* `Transaction.stops_retry`, `Transaction.Stops.retry_eq`: a repeated transaction comes to an end in
  exactly one way
* `Catalog.run_updateField_of_failsNext`, `Catalog.run_createField_of_failsNext`: a stored field and a
  new one whose type fails for a while
* `Catalog.retrying_outcomes`: the outcomes of repeated attempts
-/

namespace FieldCatalog

/-! ## Attempts one after another -/

namespace Transaction

variable {σ α : Type} {body : Transaction σ α} {h : Holdings σ} {held : Bool} {n limit : Nat}
  {outcome : Except Failure α × Holdings σ}

/-- What a number of attempts at a transaction leaves behind, each of which goes on from what the one
before it has left. -/
def holdingsAfter (body : Transaction σ α) (n : Nat) (h : Holdings σ) : Holdings σ :=
  (fun h => (body h).2)^[n] h

@[simp] theorem holdingsAfter_zero (body : Transaction σ α) (h : Holdings σ) :
    holdingsAfter body 0 h = h := rfl

/-- The first attempt and then the others. -/
theorem holdingsAfter_succ (body : Transaction σ α) (n : Nat) (h : Holdings σ) :
    holdingsAfter body (n + 1) h = holdingsAfter body n (body h).2 := rfl

/-- The last attempt after the others. -/
theorem holdingsAfter_succ' (body : Transaction σ α) (n : Nat) (h : Holdings σ) :
    holdingsAfter body (n + 1) h = (body (holdingsAfter body n h)).2 :=
  Function.iterate_succ_apply' _ n h

/-- A transaction that is tried at most `limit` times comes to an end with the attempt that is made
after `n` others: these have all failed for passing reasons, and this one has not, unless it is the
last that is allowed. -/
structure Stops (body : Transaction σ α) (limit : Nat) (h : Holdings σ) (n : Nat)
    (outcome : Except Failure α × Holdings σ) : Prop where
  allowed : n < limit
  passing : ∀ i < n, ∃ e, (body (holdingsAfter body i h)).1 = .error e ∧ e.isTransient = true
  last : outcome = body (holdingsAfter body n h)
  ends : n + 1 = limit ∨ ∀ e, outcome.1 = .error e → e.isTransient = false

/-- A repeated transaction comes to an end within the attempts that are allowed. -/
theorem stops_retry (body : Transaction σ α) (again : Nat) (h : Holdings σ) :
    ∃ n, Stops body (again + 1) h n (retry again body h) := by
  -- Induction on the attempts that are left: either the first one ends the repetition, or the others
  -- go on from what it leaves behind.
  induction again generalizing h with
  | zero => exact ⟨0, Nat.zero_lt_one, fun i hi => absurd hi (Nat.not_lt_zero i), rfl, .inl rfl⟩
  | succ again ih =>
    unfold retry
    have hnone : ∀ i < 0, ∃ e, (body (holdingsAfter body i h)).1 = .error e ∧
        e.isTransient = true := fun i hi => absurd hi (Nat.not_lt_zero i)
    rcases hfirst : body h with ⟨e | a, h'⟩
    · dsimp only
      split
      · next htransient =>
        obtain ⟨n, hn⟩ := ih h'
        have hafter : ∀ i, holdingsAfter body (i + 1) h = holdingsAfter body i h' := fun i => by
          rw [holdingsAfter_succ, hfirst]
        refine ⟨n + 1, Nat.succ_lt_succ hn.allowed, fun i hi => ?_, ?_, ?_⟩
        · cases i with
          | zero => exact ⟨e, congrArg Prod.fst hfirst, htransient⟩
          | succ i =>
            rw [hafter]
            exact hn.passing i (Nat.lt_of_succ_lt_succ hi)
        · rw [hafter]
          exact hn.last
        · exact hn.ends.imp_left (congrArg Nat.succ)
      · next hlasting =>
        refine ⟨0, Nat.zero_lt_succ _, hnone, hfirst.symm, .inr fun e' he => ?_⟩
        obtain rfl : e = e' := Except.error.inj he
        simpa using hlasting
    · exact ⟨0, Nat.zero_lt_succ _, hnone, hfirst.symm, .inr fun e he => by cases he⟩

/-- There is only one end that a repeated transaction can come to. -/
theorem Stops.retry_eq {again : Nat} (hs : Stops body (again + 1) h n outcome) :
    retry again body h = outcome := by
  -- Induction on the attempts that are left, for all holdings.
  induction again generalizing h n with
  | zero =>
    obtain rfl : n = 0 := Nat.lt_one_iff.mp hs.allowed
    exact hs.last.symm
  | succ again ih =>
    unfold retry
    cases n with
    | zero =>
      have hlast : outcome = body h := hs.last
      rcases hfirst : body h with ⟨e | a, h'⟩
      · rw [hfirst] at hlast
        have hlasting : e.isTransient = false :=
          (hs.ends.resolve_left (by omega)) e (by rw [hlast])
        rw [hlast]
        simp only [hlasting, Bool.false_eq_true, if_false]
      · rw [hlast, hfirst]
    | succ n =>
      obtain ⟨e, hfirst, htransient⟩ := hs.passing 0 (Nat.zero_lt_succ n)
      rcases hbody : body h with ⟨result, h'⟩
      obtain rfl : result = .error e := by rw [← hfirst, holdingsAfter_zero, hbody]
      have hafter : ∀ i, holdingsAfter body i h' = holdingsAfter body (i + 1) h := fun i => by
        rw [holdingsAfter_succ, hbody]
      simp only [htransient, if_true]
      refine ih ⟨Nat.lt_of_succ_lt_succ hs.allowed, fun i hi => ?_, ?_, ?_⟩
      · rw [hafter]
        exact hs.passing (i + 1) (Nat.succ_lt_succ hi)
      · rw [hafter]
        exact hs.last
      · exact hs.ends.imp_left fun he => Nat.succ.inj he

/-- An attempt that fails leaves the contents as they were. -/
theorem contents_attempt_of_error {e : Failure} (hfails : (attempt held body h).1 = .error e) :
    (attempt held body h).2.contents = h.contents := by
  have htried : Tried held body h (attempt held body h) := tried_attempt
  generalize attempt held body h = run at hfails htried ⊢
  obtain ⟨result, h'⟩ := run
  cases hfails
  exact htried.1

/-- As long as the attempts fail, the contents stay as they were. -/
theorem contents_holdingsAfter
    (hfails : ∀ i < n, ∃ e, (attempt held body (holdingsAfter (attempt held body) i h)).1 = .error e) :
    (holdingsAfter (attempt held body) n h).contents = h.contents := by
  induction n with
  | zero => rfl
  | succ n ih =>
    obtain ⟨e, he⟩ := hfails n (Nat.lt_succ_self n)
    rw [holdingsAfter_succ', contents_attempt_of_error he]
    exact ih fun i hi => hfails i (Nat.lt_succ_of_lt hi)

/-- An attempt that succeeds is a success of the transaction. -/
theorem eq_ok_of_attempt {a : α} {h' : Holdings σ} (hrun : attempt held body h = (.ok a, h')) :
    held = false ∧ body h = (.ok a, h') := by
  unfold attempt at hrun
  split at hrun
  · cases hrun
  · next hheld =>
    refine ⟨by simpa using hheld, ?_⟩
    rcases hbody : body h with ⟨e | b, h''⟩ <;> rw [hbody] at hrun <;> cases hrun
    rfl

/-- A transaction whose first attempts fail in one way, and whose next one succeeds, comes to an end
with the success, unless there are not as many attempts: after the only one if the failure is
lasting, and else after as many as are allowed. -/
theorem retry_of_failures (again : Nat) {e : Failure} {a : α}
    (hfails : ∀ i < n, (body (holdingsAfter body i h)).1 = .error e)
    (hlast : (body (holdingsAfter body n h)).1 = .ok a) :
    retry again body h =
      body (holdingsAfter body (min n (if e.isTransient then again else 0)) h) := by
  refine Stops.retry_eq ⟨?_, fun i hi => ⟨e, hfails i (by omega), ?_⟩, rfl, ?_⟩
  · split <;> omega
  · by_contra hlasting
    rw [if_neg hlasting] at hi
    omega
  · by_cases hn : n ≤ if e.isTransient then again else 0
    · rw [Nat.min_eq_left hn, hlast]
      exact .inr fun e' he => by cases he
    · -- The attempts are used up before the success, or the first failure is a lasting one.
      rw [Nat.min_eq_right (Nat.le_of_not_le hn)]
      cases htransient : e.isTransient with
      | true => exact .inl (by rw [if_pos rfl])
      | false =>
        refine .inr fun e' he => ?_
        rw [hfails _ (Nat.lt_of_not_le (by simpa [htransient] using hn))] at he
        rwa [← Except.error.inj he]

end Transaction

/-- What a call leads to that runs a transaction in several attempts, the last of which is made after
`n` others. A success is the transaction, run once on the contents as they were and on what the types
remember of the other attempts; a failure leaves the contents as they were. -/
structure Call.Repeated {σ α : Type} (body : Circumstances σ → Transaction σ α) (k : Circumstances σ)
    (h : Holdings σ) (n : Nat) (outcome : Except Failure α × Holdings σ) : Prop where
  stops : Transaction.Stops (.attempt k.heldElsewhere (body k)) (max 1 k.attempts) h n outcome
  ok : ∀ a h', outcome = (.ok a, h') → body k { h with
      types := (Transaction.holdingsAfter (.attempt k.heldElsewhere (body k)) n h).types } = (.ok a, h')
  error : ∀ e h', outcome = (.error e, h') → h'.contents = h.contents

/-- A call comes to an end within the attempts that are allowed. -/
theorem Call.repeated_mutateWith {σ α : Type} (body : Circumstances σ → Transaction σ α)
    (k : Circumstances σ) (h : Holdings σ) :
    ∃ n, Repeated body k h n ((mutateWith body).run k h) := by
  obtain ⟨n, hstops⟩ :=
    Transaction.stops_retry (.attempt k.heldElsewhere (body k)) (k.attempts - 1) h
  have hlimit : k.attempts - 1 + 1 = max 1 k.attempts := by omega
  rw [hlimit] at hstops
  -- The attempts before the last one have left the contents as they were.
  have hsame : (Transaction.holdingsAfter (.attempt k.heldElsewhere (body k)) n h).contents =
      h.contents :=
    Transaction.contents_holdingsAfter fun i hi => (hstops.passing i hi).imp fun _ he => he.1
  refine ⟨n, hstops, fun a h' hrun => ?_, fun e h' hrun => ?_⟩
  · have hlast := hstops.last.symm.trans hrun
    have hbody := (Transaction.eq_ok_of_attempt hlast).2
    rwa [← hsame]
  · have hlast := hstops.last.symm.trans hrun
    have hcontents := Transaction.contents_attempt_of_error (congrArg Prod.fst hlast)
    rwa [hlast, hsame] at hcontents

/-! ## Types that fail for a while -/

/-- What a type may ask in the middle of a transaction: nothing. -/
def Outlook.closed : Outlook :=
  ⟨fun _ => .error .storeBusy⟩

/-- What a type may ask outside of a transaction: the sizes of listings. -/
def Contents.outlook (c : Contents) : Outlook :=
  ⟨fun scope => .ok (c.count scope)⟩

namespace FieldType

variable {σ : Type} {type : FieldType σ} {outlook : Outlook} {members : Json.Members} {e : Failure}
  {n : Nat} {s : σ} {calls : σ → Nat}

/-- What the types remember after a type has checked a configuration a number of times. -/
def stateAfter (type : FieldType σ) (outlook : Outlook) (members : Json.Members) (n : Nat) (s : σ) :
    σ :=
  (fun s => (type.check members outlook s).2)^[n] s

@[simp] theorem stateAfter_zero (type : FieldType σ) (outlook : Outlook) (members : Json.Members)
    (s : σ) : type.stateAfter outlook members 0 s = s := rfl

theorem stateAfter_succ (type : FieldType σ) (outlook : Outlook) (members : Json.Members) (n : Nat)
    (s : σ) : type.stateAfter outlook members (n + 1) s =
      (type.check members outlook (type.stateAfter outlook members n s)).2 :=
  Function.iterate_succ_apply' _ n s

/-- The next `n` checks of a configuration fail in the same way, and the check after them
succeeds. -/
structure FailsNext (type : FieldType σ) (outlook : Outlook) (members : Json.Members) (e : Failure)
    (n : Nat) (s : σ) : Prop where
  fails : ∀ i < n, (type.check members outlook (type.stateAfter outlook members i s)).1 = .error e
  accepts : (type.check members outlook (type.stateAfter outlook members n s)).1 = .ok ()

/-- A check that fails, and what the types remember after it. -/
theorem FailsNext.check_eq_error (h : type.FailsNext outlook members e n s) {i : Nat} (hi : i < n) :
    type.check members outlook (type.stateAfter outlook members i s) =
      (.error e, type.stateAfter outlook members (i + 1) s) :=
  Prod.ext (h.fails i hi) (type.stateAfter_succ outlook members i s).symm

/-- The check after the failures, and what the types remember after it. -/
theorem FailsNext.check_eq_ok (h : type.FailsNext outlook members e n s) :
    type.check members outlook (type.stateAfter outlook members n s) =
      (.ok (), type.stateAfter outlook members (n + 1) s) :=
  Prod.ext h.accepts (type.stateAfter_succ outlook members n s).symm

/-- A number that every check by a type increases by one. -/
def Counts (type : FieldType σ) (calls : σ → Nat) : Prop :=
  ∀ members outlook s, calls (type.check members outlook s).2 = calls s + 1

theorem Counts.calls_stateAfter (h : type.Counts calls) (outlook : Outlook) (members : Json.Members)
    (n : Nat) (s : σ) : calls (type.stateAfter outlook members n s) = calls s + n := by
  induction n with
  | zero => rfl
  | succ n ih => rw [stateAfter_succ, h, ih, Nat.add_assoc]

/-- A type has checked a configuration a number of times: what the types remember is what they do
after so many checks, and every count of its checks has gone up by this number. -/
structure Checked (type : FieldType σ) (outlook : Outlook) (members : Json.Members) (n : Nat)
    (s s' : σ) : Prop where
  state : s' = type.stateAfter outlook members n s
  calls : ∀ calls, type.Counts calls → calls s' = calls s + n

theorem checked_stateAfter (type : FieldType σ) (outlook : Outlook) (members : Json.Members) (n : Nat)
    (s : σ) : type.Checked outlook members n s (type.stateAfter outlook members n s) :=
  ⟨rfl, fun _ hcalls => hcalls.calls_stateAfter outlook members n s⟩

end FieldType

namespace Probe

/-- What the probing types remember after some checks by the type that fails for a while. -/
theorem stateAfter_flaky (outlook : Outlook) (members : Json.Members) (p : Probe) {i : Nat}
    (hi : i ≤ p.failures) :
    flaky.stateAfter outlook members i p =
      { p with calls := p.calls + i, failures := p.failures - i } := by
  induction i with
  | zero => rfl
  | succ i ih =>
    obtain ⟨left, hleft⟩ := Nat.exists_eq_add_of_lt hi
    have hnext : p.failures - i = left + 1 := by omega
    have hrest : p.failures - (i + 1) = left := by omega
    rw [FieldType.stateAfter_succ, ih (Nat.le_of_succ_le hi), hnext, hrest]
    rfl

/-- The type that fails for a while fails as often as it is armed to, and then succeeds. -/
theorem failsNext_flaky (outlook : Outlook) (members : Json.Members) (p : Probe) :
    flaky.FailsNext outlook members p.failure p.failures p where
  fails i hi := by
    obtain ⟨left, hleft⟩ := Nat.exists_eq_add_of_lt hi
    have hnext : p.failures - i = left + 1 := by omega
    rw [stateAfter_flaky outlook members p (Nat.le_of_lt hi), hnext]
    rfl
  accepts := by
    rw [stateAfter_flaky outlook members p (Nat.le_refl _), Nat.sub_self]
    rfl

theorem counts_flaky : flaky.Counts Probe.calls := by
  rintro members outlook ⟨calls, failures, failure⟩
  cases failures <;> rfl

end Probe

/-- A configuration is prepared by one check of its type. -/
theorem Registry.prepare_of_resolve {σ : Type} {r : Registry σ} {tag : String} {type : FieldType σ}
    {configdata : Option Json} {members : Json.Members} (hresolve : r.resolve tag = .ok type)
    (hobject : configdata.getD (.object []) = .object members) (outlook : Outlook) (s : σ) :
    r.prepare tag configdata outlook s =
      ((type.check members outlook s).1.map fun _ => (Json.object members).render,
        (type.check members outlook s).2) := by
  simp only [prepare, Check.bind_apply, FieldType.answer, hresolve, hobject]
  rcases type.check members outlook s with ⟨_ | _, _⟩ <;> rfl

/-- How often a change is tried at most that fails in a certain way: as often as the circumstances
allow if it fails for a passing reason, and else once. -/
def Circumstances.tries {σ : Type} (k : Circumstances σ) (e : Failure) : Nat :=
  if e.isTransient then max 1 k.attempts else 1

theorem Circumstances.tries_eq {σ : Type} (k : Circumstances σ) (e : Failure) :
    k.tries e = (if e.isTransient then k.attempts - 1 else 0) + 1 := by
  unfold tries
  split <;> omega

namespace Catalog

open Contents Statement Transaction

variable {σ : Type} {k : Circumstances σ} {c : Contents} {s : σ} {id : Id} {old : Field}
  {type : FieldType σ} {members : Json.Members} {amendment : Amendment} {e : Failure} {n : Nat}

/-! ## Stored fields -/

/-- An attempt at an amendment checks the configuration once, and stores the field if the check
succeeds. -/
theorem attempt_amend (hc : c.Referential) (hold : c.field? id = some old)
    (hresolve : k.registry.resolve old.type = .ok type)
    (hobject : amendment.configdata = some (.object members)) {result : Except Failure Unit} {s' : σ} :
    type.check members .closed s = (result, s') →
      attempt false (amend k.registry id amendment k.now) ⟨c, s⟩ =
        match result with
        | .ok _ => (.ok (amendment.applied old k.now),
            ⟨c.withField (c.storedField (amendment.applied old k.now)), s'⟩)
        | .error e => (.error e, ⟨c, s'⟩) := by
  intro hcheck
  have hread : (ofStatement (Statement.field id) : Transaction σ Field) ⟨c, s⟩ =
      (.ok old, ⟨c, s⟩) := by
    simp only [ofStatement, on_field, hold]
  have hprepare : k.registry.prepare old.type (some (.object members)) .closed s =
      (result.map fun _ => (Json.object members).render, s') := by
    rw [Registry.prepare_of_resolve hresolve rfl, hcheck]
  have hconfig : amendedConfigdata k.registry old amendment.configdata ⟨c, s⟩ =
      (result.map fun _ => (Json.object members).render, ⟨c, s'⟩) := by
    rw [hobject]
    show ofCheck .closed (k.registry.prepare old.type (some (.object members))) ⟨c, s⟩ = _
    simp only [ofCheck, hprepare]
  -- The row that is stored has the new configuration, and it stays in its category.
  have hrow : ({ old with
        name := (amendment.name.map Text.trim).getD old.name
        description := amendment.description.getD old.description
        configdata := (Json.object members).render
        timemodified := k.now } : Field) = amendment.applied old k.now := by
    rw [Amendment.applied, hobject]
    rfl
  have hhome := hc.hasCategory hold
  have hput := on_putField_of_hasCategory (amendment.applied old k.now) hhome
  simp only [attempt, amend, bind_apply, hread, hconfig, Bool.false_eq_true, if_false]
  cases result with
  | error e => rfl
  | ok _ =>
    simp only [Except.map, hrow, ofStatement, hput]
    rfl

/-- As long as the checks fail, each attempt at an amendment is one more check. -/
theorem holdingsAfter_amend (hc : c.Referential) (hold : c.field? id = some old)
    (hresolve : k.registry.resolve old.type = .ok type)
    (hobject : amendment.configdata = some (.object members))
    (hfails : type.FailsNext .closed members e n s) {i : Nat} (hi : i ≤ n) :
    holdingsAfter (attempt false (amend k.registry id amendment k.now)) i ⟨c, s⟩ =
      ⟨c, type.stateAfter .closed members i s⟩ := by
  induction i with
  | zero => rfl
  | succ i ih =>
    rw [holdingsAfter_succ', ih (Nat.le_of_succ_le hi),
      attempt_amend hc hold hresolve hobject (hfails.check_eq_error hi)]

/-- An amendment of a field whose type fails for a while is made with the first check that succeeds,
unless it is given up before. -/
theorem run_amend_of_failsNext (hheld : k.heldElsewhere = false) (hc : c.Referential)
    (hold : c.field? id = some old) (hresolve : k.registry.resolve old.type = .ok type)
    (hobject : amendment.configdata = some (.object members))
    (hfails : type.FailsNext .closed members e n s) :
    (Call.mutateWith fun k => amend k.registry id amendment k.now).run k ⟨c, s⟩ =
      if n < k.tries e then
        (.ok (amendment.applied old k.now),
          ⟨c.withField (c.storedField (amendment.applied old k.now)),
            type.stateAfter .closed members (n + 1) s⟩)
      else (.error e, ⟨c, type.stateAfter .closed members (k.tries e) s⟩) := by
  have hafter : ∀ i ≤ n,
      holdingsAfter (attempt false (amend k.registry id amendment k.now)) i ⟨c, s⟩ =
        ⟨c, type.stateAfter .closed members i s⟩ := fun i hi =>
    holdingsAfter_amend hc hold hresolve hobject hfails hi
  have herror : ∀ i < n, attempt false (amend k.registry id amendment k.now)
      ⟨c, type.stateAfter .closed members i s⟩ =
        (.error e, ⟨c, type.stateAfter .closed members (i + 1) s⟩) := fun i hi =>
    attempt_amend hc hold hresolve hobject (hfails.check_eq_error hi)
  have hok := attempt_amend hc hold hresolve hobject hfails.check_eq_ok
  have hretry := retry_of_failures (k.attempts - 1)
    (fun i hi => by rw [hafter i (Nat.le_of_lt hi), herror i hi])
    (by rw [hafter n (Nat.le_refl n), hok])
  show retry (k.attempts - 1) (attempt k.heldElsewhere _) _ = _
  rw [hheld, hretry, hafter _ (Nat.min_le_left _ _), k.tries_eq]
  generalize (if e.isTransient then k.attempts - 1 else 0) = again
  by_cases hn : n ≤ again
  · rw [if_pos (Nat.lt_succ_of_le hn), Nat.min_eq_left hn, hok]
  · rw [if_neg (by omega), Nat.min_eq_right (Nat.le_of_not_le hn), herror _ (Nat.lt_of_not_le hn)]

/-- A stored field whose type fails for a while is updated if it can be tried often enough. -/
theorem run_updateField_of_failsNext {h : Holdings σ} (hheld : k.heldElsewhere = false)
    (hc : h.contents.Referential) (hold : h.contents.field? id = some old)
    (hresolve : k.registry.resolve old.type = .ok type)
    (hobject : amendment.configdata = some (.object members))
    (hname : ∀ name ∈ amendment.name, Text.allBlank name = false)
    (hfails : type.FailsNext .closed members e n h.types) :
    (updateField id amendment).run k h =
      if n < k.tries e then
        (.ok (amendment.applied old k.now),
          ⟨h.contents.withField (h.contents.storedField (amendment.applied old k.now)),
            type.stateAfter .closed members (n + 1) h.types⟩)
      else (.error e, ⟨h.contents, type.stateAfter .closed members (k.tries e) h.types⟩) := by
  have hamend := run_amend_of_failsNext hheld hc hold hresolve hobject hfails
  unfold updateField
  split
  · next name hsome =>
    rw [Call.run_bind, properName_of_not_blank "field" (hname name hsome)]
    exact hamend
  · exact hamend

/-! ## New fields -/

/-- The configuration of a new field is checked once, and only what the types remember changes. -/
theorem run_prepare_eq (tag : String) (configdata : Option Json) (k : Circumstances σ)
    (h : Holdings σ) :
    (prepare tag configdata).run k h =
      ((k.registry.prepare tag configdata h.contents.outlook h.types).1,
        { h with types := (k.registry.prepare tag configdata h.contents.outlook h.types).2 }) :=
  rfl

/-- A new field is checked once, before the transaction. -/
theorem run_createField_of_failsNext {h : Holdings σ} (categoryid : Id) {draft : Draft}
    (hdraft : properDraft draft = .ok draft.trimmed)
    (hresolve : k.registry.resolve draft.type = .ok type)
    (hobject : draft.configdata.getD (.object []) = .object members)
    (hfails : type.FailsNext h.contents.outlook members e n h.types) :
    (createField categoryid draft).run k h =
      if n = 0 then
        (Call.mutate (addField categoryid draft.trimmed (Json.object members).render)).run k
          ⟨h.contents, type.stateAfter h.contents.outlook members 1 h.types⟩
      else (.error e, ⟨h.contents, type.stateAfter h.contents.outlook members 1 h.types⟩) := by
  have hprepare : (prepare draft.type draft.configdata).run k h =
      ((type.check members h.contents.outlook h.types).1.map fun _ => (Json.object members).render,
        ⟨h.contents, (type.check members h.contents.outlook h.types).2⟩) := by
    rw [run_prepare_eq, Registry.prepare_of_resolve hresolve hobject]
  rw [createField, Call.run_ofResult_bind, hdraft]
  show (prepare draft.type draft.configdata >>= _).run k h = _
  rw [Call.run_bind, hprepare]
  by_cases hn : n = 0
  · subst hn
    have hcheck := hfails.check_eq_ok
    rw [FieldType.stateAfter_zero] at hcheck
    rw [hcheck]
    rfl
  · have hcheck := hfails.check_eq_error (Nat.pos_of_ne_zero hn)
    rw [FieldType.stateAfter_zero] at hcheck
    rw [hcheck, if_neg hn]
    rfl

/-! ## The outcomes of repeated attempts -/

/-- A call comes to an end within the attempts that are allowed. When it succeeds, its transaction has
been run once on the contents as they were, after `n` attempts that left nothing but what the types
remember; when it fails, the contents are as they were. Besides, a stored field whose type fails for a
while is checked once in every attempt, and a new field once for all. -/
theorem retrying_outcomes (k : Circumstances σ) (h : Holdings σ) :
    (∀ (α : Type) (body : Circumstances σ → Transaction σ α),
      ∃ n, Call.Repeated body k h n ((Call.mutateWith body).run k h)) ∧
    (k.heldElsewhere = false → h.contents.Referential →
      ∀ (type : FieldType σ) (members : Json.Members) (e : Failure) (n : Nat),
        (∀ (id : Id) (old : Field) (amendment : Amendment), h.contents.field? id = some old →
          k.registry.resolve old.type = .ok type →
          amendment.configdata = some (.object members) →
          (∀ name ∈ amendment.name, Text.allBlank name = false) →
          type.FailsNext .closed members e n h.types →
            let row := amendment.applied old k.now
            ∃ types, type.Checked .closed members (min (n + 1) (k.tries e)) h.types types ∧
              (updateField id amendment).run k h =
                if n < k.tries e then
                  (.ok row, ⟨h.contents.withField (h.contents.storedField row), types⟩)
                else (.error e, ⟨h.contents, types⟩)) ∧
        ∀ (categoryid : Id) (home : Category) (draft : Draft),
          h.contents.category? categoryid = some home →
          IsShortname (Text.trim draft.shortname) → Text.allBlank draft.name = false →
          ¬ h.contents.TakenIn home.area (Text.trim draft.shortname) →
          k.registry.resolve draft.type = .ok type →
          draft.configdata.getD (.object []) = .object members →
          type.FailsNext h.contents.outlook members e n h.types →
            ∃ types, type.Checked h.contents.outlook members 1 h.types types ∧
              (1 ≤ n → (createField categoryid draft).run k h = (.error e, ⟨h.contents, types⟩)) ∧
              (n = 0 → ∃ row c', (createField categoryid draft).run k h = (.ok row, ⟨c', types⟩) ∧
                h.contents.CreatedField k.now categoryid draft.trimmed (Json.object members).render
                  row c')) := by
  refine ⟨fun α body => Call.repeated_mutateWith body k h, fun hheld hc type members e n =>
    ⟨fun id old amendment hold hresolve hobject hname hfails => ?_,
      fun categoryid home draft hhome hs hname hfree hresolve hobject hfails => ?_⟩⟩
  · have hrun := run_updateField_of_failsNext hheld hc hold hresolve hobject hname hfails
    refine ⟨_, type.checked_stateAfter .closed members _ h.types, hrun.trans ?_⟩
    split
    · next hn => rw [Nat.min_eq_left hn]
    · next hn => rw [Nat.min_eq_right (by omega)]
  · have hrun := run_createField_of_failsNext categoryid (properDraft_eq_trimmed hs hname)
      hresolve hobject hfails
    refine ⟨_, type.checked_stateAfter h.contents.outlook members 1 h.types, fun hn => ?_,
      fun hn => ?_⟩
    · rw [hrun, if_neg (by omega)]
    · obtain ⟨row, c', hbody, hcreated⟩ := on_addField_created k.now draft.trimmed
        (Json.object members).render hhome hfree
      refine ⟨row, c', ?_, hcreated⟩
      rw [hrun, if_pos hn]
      exact Call.run_mutate_of_ok hheld hbody

theorem retrying_outcomes_flaky :
    let c : Contents := ⟨⟨[⟨1, "General", "", ⟨"core", "course", 0⟩, 0, 5, 5⟩], by decide⟩,
      ⟨[⟨1, "pulse", "Pulse", "flaky", "", 1, 0, "\x7b\x7d", 5, 5⟩], by decide⟩⟩
    let k : Circumstances Probe := ⟨⟨Registry.insertByTag Probe.flaky (FieldType.builtin Probe)⟩, 3,
      false, 6⟩
    let passing : Holdings Probe := ⟨c, Probe.idle.arm 2 (.partialWrite .field 1)⟩
    let lasting : Holdings Probe := ⟨c, Probe.idle.arm 2 (.invalidField "later")⟩
    Registry.builtin.register Probe.flaky = .ok k.registry ∧
      (∃ h', (updateField 1 ⟨none, none, some (.object [])⟩).run k passing =
        (.ok ⟨1, "pulse", "Pulse", "flaky", "", 1, 0, "\x7b\x7d", 5, 6⟩, h') ∧ h'.types.calls = 3) ∧
      (∃ h', (updateField 1 ⟨none, none, some (.object [])⟩).run k lasting =
        (.error (.invalidField "later"), h') ∧ h'.types.calls = 1) ∧
      ∃ h', (createField 1 ⟨"beat", "Beat", "flaky", "", none⟩).run k passing =
        (.error (.partialWrite .field 1), h') ∧ h'.types.calls = 1 := by
  intro c k passing lasting
  have hc : c.Referential := by decide
  have hresolve : k.registry.resolve "flaky" = .ok Probe.flaky := by rfl
  obtain ⟨hupdate, hcreate⟩ := (retrying_outcomes k passing).2 rfl hc Probe.flaky []
    (.partialWrite .field 1) 2
  obtain ⟨hupdate', -⟩ := (retrying_outcomes k lasting).2 rfl hc Probe.flaky []
    (.invalidField "later") 2
  refine ⟨by rfl, ?_, ?_, ?_⟩
  · obtain ⟨types, hchecked, hrun⟩ := hupdate 1 _ ⟨none, none, some (.object [])⟩ rfl hresolve rfl
      (by simp) (Probe.failsNext_flaky .closed [] passing.types)
    exact ⟨_, hrun, hchecked.calls _ Probe.counts_flaky⟩
  · obtain ⟨types, hchecked, hrun⟩ := hupdate' 1 _ ⟨none, none, some (.object [])⟩ rfl hresolve rfl
      (by simp) (Probe.failsNext_flaky .closed [] lasting.types)
    exact ⟨_, hrun, hchecked.calls _ Probe.counts_flaky⟩
  · obtain ⟨types, hchecked, herror, -⟩ := hcreate 1 _ ⟨"beat", "Beat", "flaky", "", none⟩ rfl
      (by decide) (by decide) (by decide) hresolve rfl (Probe.failsNext_flaky _ [] passing.types)
    exact ⟨_, herror (by decide), hchecked.calls _ Probe.counts_flaky⟩

end Catalog

end FieldCatalog
