import FieldCatalog.Action.Execute
import FieldCatalog.Proofs.Catalog.Operations

/-!
# What actions guarantee

An action is an operation with reads around it: the area of an entry is looked up before the entry
is deleted, and after any other operation the area is looked up and its configuration read. In
contents where every field lies in an existing category none of the reads can fail once the operation
has succeeded, so that a failed action has changed nothing.

## Main definitions

* `Action.areaIn`: the area that an action concerns

## Main results

* `Statement.on_areaOf`: the area of an entry
* `Action.ensures_execute`: what an action answers and does
* `Action.unchanged_or_refreshed`: a failure changes nothing, and an answer shows what has become of
  the area
-/

namespace FieldCatalog

/-! ## Reads -/

namespace Statement

open Contents

variable {c : Contents}

/-- The area of an entry is found when the entry is. -/
theorem on_areaOf (hc : c.Referential) (kind : Kind) (id : Id) :
    (areaOf kind id).on c = match c.entryArea? kind id with
      | some area => (.ok area, c)
      | none => (.error (.notFound kind id), c) := by
  -- Behind the look-up of the entry, only the category of a field could be missing, and it is not.
  cases kind with
  | category =>
    simp only [areaOf, Listing.ofCategory, on_bind, on_category, entryArea?]
    cases c.category? id <;> rfl
  | field =>
    simp only [areaOf, Listing.ofField, on_bind, on_field]
    cases hf : c.field? id with
    | none =>
      rw [entryArea?, hf]
      rfl
    | some row =>
      obtain ⟨home, hhome⟩ := referential_iff.mp hc id row hf
      rw [entryArea?_field hf, areaOf?, hhome]
      simp only [on_pure, Field.scope, Listing.areaOf, on_bind, on_category, hhome, Option.map_some]

end Statement

namespace Call

variable {σ α β : Type} {k : Circumstances σ} {h : Holdings σ} {post : α → Contents → Prop}

/-- A read that cannot fail after a call. -/
theorem Ensures.bind_read {call : Call σ α} {read : α → Call σ β} {post' : β → Contents → Prop}
    (hcall : call.Ensures k h post)
    (hread : ∀ a h', post a h'.contents →
      ∃ b, (read a).run k h' = (.ok b, h') ∧ post' b h'.contents) :
    (call >>= read).Ensures k h post' := by
  cases hrun : call.run k h with
  | mk result h' =>
    cases result with
    | ok a =>
      obtain ⟨b, hb, hpost⟩ := hread a h' (hcall.ok a h' hrun)
      have hbind : (call >>= read).run k h = (.ok b, h') := by
        rw [run_bind, hrun]
        exact hb
      exact ensures_of_ok hbind hpost
    | error e =>
      have hbind : (call >>= read).run k h = (.error e, h') := by
        rw [run_bind, hrun]
      exact ensures_of_error hbind (hcall.unchanged e h' hrun) (hcall.refusal e h' hrun)

end Call

namespace Catalog

open Contents

variable {σ : Type} {k : Circumstances σ} {h : Holdings σ}

theorem run_areaOf (hc : h.contents.Referential) (kind : Kind) (id : Id) :
    (areaOf kind id).run k h = match h.contents.entryArea? kind id with
      | some area => (.ok area, h)
      | none => (.error (.notFound kind id), h) := by
  show (((Statement.areaOf kind id).on h.contents).1, h) = _
  rw [Statement.on_areaOf hc]
  cases h.contents.entryArea? kind id <;> rfl

theorem run_configuration (area : Area) :
    (configuration area).run k h = (.ok (h.contents.configuration area), h) :=
  rfl

/-- After an operation that leaves an entry in its area, the area of the entry can be read. -/
theorem ensures_areaOf_bind {α : Type} {call : Call σ α} {id : α → Id} {kind : Kind}
    {area? : Option Area} (hc : h.contents.Referential)
    (hcall : call.Ensures k h fun a c' => ∃ area, area? = some area ∧
      Change k.now area h.contents c' ∧ c'.entryArea? kind (id a) = some area) :
    Call.Ensures (do let a ← call; return (some (id a), ← areaOf kind (id a))) k h
      fun answer c' => area? = some answer.2 ∧ Change k.now answer.2 h.contents c' := by
  -- Fields still lie in existing categories when the area is read.
  refine hcall.bind_read fun a h' hpost => ?_
  obtain ⟨area, harea, hchange, hentry⟩ := hpost
  have hread := run_areaOf (k := k) (hchange.referential hc) kind (id a)
  rw [hentry] at hread
  exact ⟨(some (id a), area), by rw [Call.run_bind, hread]; rfl, harea, hchange⟩

/-- The area of an entry that is deleted is read before it is gone. -/
theorem ensures_areaOf_delete {delete : Call σ Bool} {kind : Kind} {id : Id}
    (hc : h.contents.Referential)
    (hdelete : delete.Ensures k h fun _ c' => c' = h.contents ∨
      ∃ area, h.contents.entryArea? kind id = some area ∧ Change k.now area h.contents c') :
    Call.Ensures (do let area ← areaOf kind id; let _ ← delete; return ((none : Option Id), area)) k h
      fun answer c' => h.contents.entryArea? kind id = some answer.2 ∧
        (c' = h.contents ∨ Change k.now answer.2 h.contents c') := by
  have hread := run_areaOf (k := k) hc kind id
  cases hentry : h.contents.entryArea? kind id with
  | none =>
    -- The entry does not exist, and the deletion is not tried.
    rw [hentry] at hread
    exact Call.ensures_bind h.types hread (fun _ => .error rfl) fun _ hok => by cases hok
  | some area =>
    rw [hentry] at hread
    refine Call.ensures_bind h.types hread (fun _ => .ok _) fun area' hok => ?_
    cases hok
    refine hdelete.map fun _ c' hpost => ⟨rfl, ?_⟩
    rcases hpost with hsame | ⟨area', harea, hchange⟩
    · exact .inl hsame
    · rw [hentry] at harea
      cases harea
      exact .inr hchange

end Catalog

/-! ## Actions -/

namespace Action

open Contents Catalog

variable {σ : Type} {k : Circumstances σ} {h : Holdings σ}

/-- The area that an action concerns: the one it is given, the area of the category that receives a
field, or the area of its subject. -/
def areaIn (c : Contents) : Action → Option Area
  | .createCategory area _ => some area
  | .createField categoryid _ => c.areaOf? (.fields categoryid)
  | .renameCategory id _ | .deleteCategory id | .moveCategory id _ | .dragCategory id _ =>
    c.entryArea? .category id
  | .deleteField id | .moveField id _ | .dragField id _ _ => c.entryArea? .field id

/-- An answer leaves behind what carrying out the action has left behind. -/
theorem holdings_run (a : Action) : (a.run k h).2 = (a.execute.run k h).2 := by
  unfold Action.run
  split <;> next hrun => rw [hrun]

/-- An action answers the area that it concerns and changes nothing elsewhere. -/
theorem ensures_apply (a : Action) (hc : h.contents.Referential) :
    a.apply.Ensures k h fun answer c' => a.areaIn h.contents = some answer.2 ∧
      (c' = h.contents ∨ Change k.now answer.2 h.contents c') := by
  have changed : ∀ {area? : Option Area} {answer : Option Id × Area} {c' : Contents},
      area? = some answer.2 ∧ Change k.now answer.2 h.contents c' →
        area? = some answer.2 ∧ (c' = h.contents ∨ Change k.now answer.2 h.contents c') :=
    fun hpost => ⟨hpost.1, .inr hpost.2⟩
  cases a with
  | createCategory area name =>
    refine ensures_createCategory.map fun category c' hpost => ?_
    obtain ⟨harea, hchange⟩ := hpost
    exact ⟨congrArg some harea.symm, .inr (harea ▸ hchange)⟩
  | renameCategory id name => exact ensures_renameCategory.map fun _ _ hpost => changed hpost
  | deleteCategory id => exact ensures_areaOf_delete hc ensures_deleteCategory
  | createField categoryid draft =>
    exact (ensures_areaOf_bind hc ensures_createField).imp fun _ _ hpost => changed hpost
  | deleteField id => exact ensures_areaOf_delete hc (ensures_deleteField hc)
  | moveCategory id direction =>
    exact (ensures_areaOf_bind hc ensures_moveCategory).imp fun _ _ hpost => changed hpost
  | moveField id direction =>
    exact (ensures_areaOf_bind hc (ensures_moveField hc)).imp fun _ _ hpost => changed hpost
  | dragCategory id before =>
    exact (ensures_areaOf_bind hc ensures_dragCategory).imp fun _ _ hpost => changed hpost
  | dragField id categoryid before =>
    exact (ensures_areaOf_bind hc (ensures_dragField hc)).imp fun _ _ hpost => changed hpost

/-- An action that succeeds answers the configuration of the area that it concerns, as it is
afterwards. -/
theorem ensures_execute (a : Action) (hc : h.contents.Referential) :
    a.execute.Ensures k h fun refresh c' => a.areaIn h.contents = some refresh.area ∧
      refresh.sections = c'.configuration refresh.area ∧
      (c' = h.contents ∨ Change k.now refresh.area h.contents c') := by
  -- Reading a configuration cannot fail.
  refine (ensures_apply a hc).bind_read fun answer h' hpost => ?_
  obtain ⟨id, area⟩ := answer
  exact ⟨⟨id, area, h'.contents.configuration area⟩, rfl, hpost.1, rfl, hpost.2⟩

/-- A failed action or operation has changed nothing. An action that succeeds answers the area that
it concerns, and the configuration of that area as it is afterwards. -/
theorem unchanged_or_refreshed (k : Circumstances σ) (h : Holdings σ) (hc : h.contents.Referential) :
    (∀ (a : Action) e h', a.execute.run k h = (.error e, h') → h'.contents = h.contents) ∧
      (∀ (m : Mutation) e h', m.perform.run k h = (.error e, h') → h'.contents = h.contents) ∧
      ∀ (a : Action) refresh h', a.execute.run k h = (.ok refresh, h') →
        a.areaIn h.contents = some refresh.area ∧
          (configuration refresh.area).run k h' = (.ok refresh.sections, h') := by
  refine ⟨fun a => (a.ensures_execute hc).unchanged, fun m => (m.ensures hc).unchanged, ?_⟩
  intro a refresh h' hrun
  obtain ⟨harea, hsections, -⟩ := (a.ensures_execute hc).ok refresh h' hrun
  refine ⟨harea, ?_⟩
  rw [run_configuration, hsections]

theorem unchanged_or_refreshed_sample :
    ∃ refresh h', (dragField 1 (some 2) none).execute.run ⟨.builtin, 3, false, 6⟩ ⟨sample, ()⟩ =
        (.ok refresh, h') ∧
      (dragField 1 (some 2) none).areaIn sample = some refresh.area ∧
      (configuration refresh.area).run ⟨.builtin, 3, false, 6⟩ h' = (.ok refresh.sections, h') :=
  ⟨_, _, rfl, (unchanged_or_refreshed ⟨.builtin, 3, false, 6⟩ ⟨sample, ()⟩ (by decide)).2.2
    (dragField 1 (some 2) none) _ _ rfl⟩

end Action

end FieldCatalog
