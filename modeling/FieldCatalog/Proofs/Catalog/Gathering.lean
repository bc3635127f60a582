import FieldCatalog.Proofs.Catalog.Agreement
import FieldCatalog.Proofs.Catalog.Renumbering

/-!
# Entries that are dragged together

Entries that are dragged to the end of one listing in turn stand there in the order of the drags, behind
what has stood there besides. The drags may find any positions, and fields may come from any categories
of the area. What one drag does to the listings is described in the same terms as what a run of them
does, so that the runs follow by induction: the entries that are yet to be dragged stay in their order,
wherever they are, and those that have been dragged stay in theirs.

In particular the categories of an area can be dragged into any order.

## Main definitions

* `Call.inTurn`: calls that are made one after another
* `Catalog.sendTo`: the drag of an entry to the end of a listing
* `Contents.Gathered`, `Contents.Thinned`: what dragging entries to the end of a listing leads to, there
  and in the listings where they have been

## Main results

* `Contents.Thinned.trans`, `Contents.Gathered.trans`: the entries of two runs are gathered in the order
  of the runs
* `Statement.on_sendTo`: a drag gathers its entry
* `Catalog.inTurn_sendTo`: a run of drags gathers its entries
* `Catalog.drags_inTurn`: the orders that a run of drags leads to
-/

namespace FieldCatalog

/-! ## Gathered entries -/

/-- Without a target a number is put behind the others. -/
theorem Listing.PlacedBefore.eq_append {id : Id} {old new : List Id}
    (h : Listing.PlacedBefore old id none new) : new = old.filter (· ∉ [id]) ++ [id] := by
  rw [PlacedBefore, if_neg (Option.some_ne_none id).symm] at h
  obtain ⟨front, back, hcut, rfl, hhead⟩ := h
  obtain rfl := List.head?_eq_none_iff.mp hhead
  simp only [List.mem_singleton]
  rw [hcut, List.append_nil]

/-- What is in neither of two lists is left when the one is taken out after the other. -/
theorem Listing.filter_not_mem_append (order first second : List Id) :
    order.filter (· ∉ first ++ second) = (order.filter (· ∉ first)).filter (· ∉ second) := by
  rw [List.filter_filter]
  exact List.filter_congr fun id _ => by simp [not_or, Bool.and_comm]

namespace Contents

variable {c c' c₁ : Contents} {scope : Scope} {area : Area} {id : Id} {first second : List Id}

theorem StandsAs.congr {order : List Id} (h : c.StandsAs scope order)
    (hlist : c'.list scope = c.list scope) : c'.StandsAs scope order :=
  ⟨hlist ▸ h.ids, hlist ▸ h.positions⟩

/-- What dragging entries away does to a listing: if it has had any of them, the others stand at their
ranks in their order, and otherwise nothing has happened to it. -/
structure Thinned (c : Contents) (scope : Scope) (moved : List Id) (c' : Contents) : Prop where
  leaves : (∃ id ∈ moved, id ∈ (c.list scope).map Member.id) →
    c'.StandsAs scope (((c.list scope).map Member.id).filter (· ∉ moved))
  stays : (∀ id ∈ moved, id ∉ (c.list scope).map Member.id) → c'.list scope = c.list scope

/-- What dragging entries to the end of a listing leads to: there they stand in the order of the drags,
and they are missed where they have been. -/
structure Gathered (c : Contents) (scope : Scope) (moved : List Id) (c' : Contents) : Prop where
  arrives : c'.StandsAs scope (((c.list scope).map Member.id).filter (· ∉ moved) ++ moved)
  others : ∀ other : Scope, other.kind = scope.kind → other ≠ scope → c.Thinned other moved c'
  areas : ∀ kind id, c'.entryArea? kind id = c.entryArea? kind id

namespace Thinned

theorem of_left {moved : List Id} (hleft : ∃ id ∈ moved, id ∈ (c.list scope).map Member.id)
    (hstands : c'.StandsAs scope (((c.list scope).map Member.id).filter (· ∉ moved))) :
    c.Thinned scope moved c' where
  leaves _ := hstands
  stays hnone :=
    have ⟨id, hid, hlisted⟩ := hleft
    absurd hlisted (hnone id hid)

theorem of_same {moved : List Id} (hnone : ∀ id ∈ moved, id ∉ (c.list scope).map Member.id)
    (hlist : c'.list scope = c.list scope) : c.Thinned scope moved c' where
  leaves := fun ⟨id, hid, hlisted⟩ => absurd hlisted (hnone id hid)
  stays _ := hlist

/-- What is left of a listing is what has not been dragged. -/
theorem ids {moved : List Id} (h : c.Thinned scope moved c') :
    (c'.list scope).map Member.id = ((c.list scope).map Member.id).filter (· ∉ moved) := by
  by_cases hleft : ∃ id ∈ moved, id ∈ (c.list scope).map Member.id
  · exact (h.leaves hleft).ids
  · push Not at hleft
    rw [h.stays hleft, List.filter_eq_self.mpr]
    exact fun id hid => decide_eq_true fun hmoved => hleft id hmoved hid

theorem trans (h : c.Thinned scope first c₁) (h' : c₁.Thinned scope second c') :
    c.Thinned scope (first ++ second) c' := by
  have hboth := Listing.filter_not_mem_append ((c.list scope).map Member.id) first second
  rw [← h.ids] at hboth
  by_cases hsecond : ∃ id ∈ second, id ∈ (c₁.list scope).map Member.id
  · obtain ⟨id, hid, hlisted⟩ := hsecond
    refine of_left ⟨id, List.mem_append_right _ hid, ?_⟩ (hboth ▸ h'.leaves ⟨id, hid, hlisted⟩)
    rw [h.ids] at hlisted
    exact List.mem_of_mem_filter hlisted
  · -- The second run leaves the listing as the first one has left it.
    push Not at hsecond
    have hlist := h'.stays hsecond
    have hsame : ((c₁.list scope).map Member.id).filter (· ∉ second) =
        (c₁.list scope).map Member.id :=
      List.filter_eq_self.mpr fun id hid => decide_eq_true fun hs => hsecond id hs hid
    by_cases hfirst : ∃ id ∈ first, id ∈ (c.list scope).map Member.id
    · obtain ⟨id, hid, hlisted⟩ := hfirst
      refine of_left ⟨id, List.mem_append_left _ hid, hlisted⟩ ?_
      rw [hboth, hsame, h.ids]
      exact (h.leaves ⟨id, hid, hlisted⟩).congr hlist
    · push Not at hfirst
      have hlist₁ := h.stays hfirst
      refine of_same (fun id hid => ?_) (hlist.trans hlist₁)
      rcases List.mem_append.mp hid with hid | hid
      · exact hfirst id hid
      · exact hlist₁ ▸ hsecond id hid

end Thinned

namespace Gathered

/-- Listings belong to the areas to which they have belonged. -/
theorem areaOf?_eq {moved : List Id} (h : c.Gathered scope moved c') (other : Scope) :
    c'.areaOf? other = c.areaOf? other := by
  cases other with
  | categories area => rfl
  | fields home => exact h.areas .category home

/-- The entries of two runs are gathered in the order of the runs. -/
theorem trans (h : c.Gathered scope first c₁) (h' : c₁.Gathered scope second c')
    (hdisjoint : ∀ id ∈ first, id ∉ second) : c.Gathered scope (first ++ second) c' where
  arrives := by
    -- The second run leaves the entries of the first one in their order.
    have hfirst : first.filter (· ∉ second) = first :=
      List.filter_eq_self.mpr fun id hid => decide_eq_true (hdisjoint id hid)
    have harrives := h'.arrives
    rw [h.arrives.ids, List.filter_append, hfirst, ← Listing.filter_not_mem_append, List.append_assoc]
      at harrives
    exact harrives
  others := fun other hkind hne => (h.others other hkind hne).trans (h'.others other hkind hne)
  areas := fun kind id => (h'.areas kind id).trans (h.areas kind id)

end Gathered

/-! ## One drag -/

/-- An entry that is listed stands in no other listing of its kind. -/
theorem eq_of_mem_ids {other : Scope} (hscope : c.scope? scope.kind id = some scope)
    (hkind : other.kind = scope.kind) (hid : id ∈ (c.list other).map Member.id) : other = scope := by
  obtain ⟨m, hm, rfl⟩ := List.mem_map.mp hid
  exact Option.some.inj ((scope?_of_mem_list hm).symm.trans (hkind ▸ hscope))

/-- What is listed belongs to the area of its listing. -/
theorem entryArea?_of_mem_list {m : Member} (hm : m ∈ c.list scope) :
    c.entryArea? scope.kind m.id = c.areaOf? scope := by
  rw [entryArea?_eq_bind, scope?_of_mem_list hm, Option.bind_some]

/-- An entry that is put behind the others of its own listing is gathered there. -/
theorem gathered_settle (now : Int) {order : List Member} (hscope : c.scope? scope.kind id = some scope)
    (ho : Listing.dragged (c.list scope) id none = some order) :
    c.Gathered scope [id] (c.settle now scope.kind order) := by
  have hperm := Listing.perm_of_dragged (c.nodup_ids_list scope) ho
  have hplaced := Listing.placedBefore_of_dragged (mem_ids_of_scope? hscope) ho
  refine
    { arrives := hplaced.eq_append ▸ standsAs_settle now hperm
      others := fun other hkind hne => .of_same (fun moved hmoved hlisted => hne ?_)
        (list_settle_of_ne hperm hne)
      areas := (rearranged_settle c now scope.kind order).entryArea?_eq }
  obtain rfl := List.mem_singleton.mp hmoved
  exact eq_of_mem_ids hscope hkind hlisted

variable {field : Field} {home : Id} {before : Option Id}

namespace Carried

variable (h : c.Carried field home before c')
include h

theorem areaOf?_eq (scope : Scope) : c'.areaOf? scope = c.areaOf? scope := by
  cases scope with
  | categories area => rfl
  | fields home => rw [areaOf?, areaOf?, category?, category?, h.categories]

/-- A field that is carried to a category of its area stays in the area. -/
theorem entryArea?_eq (hfield : c.field? field.id = some field)
    (hsame : c.areaOf? (.fields home) = c.areaOf? (.fields field.categoryid)) (kind : Kind) (id : Id) :
    c'.entryArea? kind id = c.entryArea? kind id := by
  cases kind with
  | category => exact h.areaOf?_eq (.fields id)
  | field =>
    rw [entryArea?_eq_bind, entryArea?_eq_bind, h.scope?_eq, funext h.areaOf?_eq]
    split
    · next hid =>
      rw [hid, scope?, hfield]
      exact hsame
    · rfl

end Carried

/-- A field that is carried to the end of a category is gathered there. -/
theorem Carried.gathered (h : c.Carried field home none c') (hfield : c.field? field.id = some field)
    (hsame : c.areaOf? (.fields home) = c.areaOf? (.fields field.categoryid)) :
    c.Gathered (.fields home) [field.id] c' := by
  have hscope : c.scope? .field field.id = some field.scope := congrArg (Option.map _) hfield
  have hlisted := mem_ids_of_scope? hscope
  refine
    { arrives := ?_
      others := fun other hkind hne => ?_
      areas := h.entryArea?_eq hfield hsame }
  · obtain ⟨order, hstands, hplaced⟩ := h.arrives
    exact hplaced.eq_append ▸ hstands
  · by_cases hown : other = field.scope
    · subst hown
      have hleaves := h.leaves fun he => hne (congrArg Scope.fields he).symm
      refine .of_left ⟨field.id, List.mem_singleton_self _, hlisted⟩ ?_
      simp only [List.mem_singleton]
      exact hleaves
    · refine .of_same (fun moved hmoved hlisted => hown ?_) (list_congr fun m => ?_)
      · obtain rfl := List.mem_singleton.mp hmoved
        exact eq_of_mem_ids hscope hkind hlisted
      · cases other with
        | categories area => cases hkind
        | fields other =>
          rw [mem_list_fields, mem_list_fields]
          refine exists_congr fun row => and_congr_left fun ⟨hrow, _⟩ => ?_
          obtain rfl := hrow
          exact h.elsewhere row (fun he => hne (congrArg Scope.fields he))
            fun he => hown (congrArg Scope.fields he)

end Contents

namespace Statement

open Contents

variable {c : Contents} {scope : Scope} {area : Area} {id : Id}

/-- Puts an entry at the end of a listing. -/
def sendTo : Scope → Id → Int → Statement Unit
  | .categories _, id => repositionCategory id none
  | .fields home, id => repositionField id (some home) none

/-- An entry of the area of a listing can be put at its end, where it is gathered. -/
theorem on_sendTo (now : Int) (hscope : c.areaOf? scope = some area)
    (hentry : c.entryArea? scope.kind id = some area) :
    ∃ c', (sendTo scope id now).on c = (.ok (), c') ∧ c.Gathered scope [id] c' := by
  cases scope with
  | categories own =>
    obtain rfl : own = area := Option.some.inj hscope
    obtain ⟨row, hrow, rfl⟩ := Option.map_eq_some_iff.mp hentry
    have hadmits : c.admits row none = .ok () := rfl
    obtain ⟨order, ho, hon⟩ := on_repositionCategory_of_ok now hrow hadmits
    exact ⟨_, hon, gathered_settle now (congrArg (Option.map Category.scope) hrow) ho⟩
  | fields home =>
    obtain ⟨field, hfield, belongs⟩ := Option.bind_eq_some_iff.mp hentry
    obtain ⟨-, rfl⟩ := field?_eq_some_iff.mp hfield
    have hdestination : c.destination field (some home) none = .ok home :=
      reachable_eq_ok belongs hscope
    obtain ⟨c', hon, hcarried⟩ := on_repositionField_carried now hfield hdestination
    exact ⟨c', hon, hcarried.gathered hfield (hscope.trans belongs.symm)⟩

end Statement

/-! ## Drags in turn -/

/-- Makes a call for each of several numbers in turn, each under circumstances of its own, until one of
them fails. -/
def Call.inTurn {σ : Type} (call : Id → Call σ Unit) :
    List (Circumstances σ × Id) → Holdings σ → Except Failure Unit × Holdings σ
  | [], h => (.ok (), h)
  | (k, id) :: rest, h =>
    match (call id).run k h with
    | (.ok _, h') => inTurn call rest h'
    | (.error e, h') => (.error e, h')

namespace Catalog

open Contents Statement

variable {σ : Type} {h : Holdings σ} {calls : List (Circumstances σ × Id)} {area : Area}

/-- Drags an entry to the end of a listing. -/
def sendTo (scope : Scope) (id : Id) : Call σ Unit :=
  Call.mutate (Statement.sendTo scope id)

/-- Entries of the area of a listing can be dragged to its end in turn, where they are gathered. -/
theorem inTurn_sendTo (scope : Scope) (hheld : ∀ step ∈ calls, step.1.heldElsewhere = false)
    (hne : calls ≠ []) (hn : (calls.map Prod.snd).Nodup) (hscope : h.contents.areaOf? scope = some area)
    (hentries : ∀ id ∈ calls.map Prod.snd, h.contents.entryArea? scope.kind id = some area) :
    ∃ c', Call.inTurn (sendTo scope) calls h = (.ok (), { h with contents := c' }) ∧
      h.contents.Gathered scope (calls.map Prod.snd) c' := by
  -- Induction on the drags, for all contents: every entry stays in its area.
  induction calls generalizing h with
  | nil => exact absurd rfl hne
  | cons step rest ih =>
    obtain ⟨k, id⟩ := step
    obtain ⟨hid, hrest⟩ := List.nodup_cons.mp hn
    obtain ⟨c₁, hon, hgathered⟩ := on_sendTo k.now hscope (hentries id List.mem_cons_self)
    have hrun : (sendTo scope id).run k h = (.ok (), { h with contents := c₁ }) :=
      Call.run_mutate_of_ok (hheld _ List.mem_cons_self) hon
    simp only [Call.inTurn, hrun]
    by_cases hlast : rest = []
    · subst hlast
      exact ⟨c₁, rfl, hgathered⟩
    · obtain ⟨c', hruns, hgathered'⟩ := ih (h := { h with contents := c₁ })
        (fun step hstep => hheld step (.tail _ hstep)) hlast hrest
        ((hgathered.areaOf?_eq scope).trans hscope) fun other hother =>
          (hgathered.areas scope.kind other).trans (hentries other (.tail _ hother))
      refine ⟨c', hruns, hgathered.trans hgathered' fun other hother => ?_⟩
      obtain rfl := List.mem_singleton.mp hother
      exact hid

/-- While nobody else holds the write lock, the categories of an area can be dragged into any order,
each to the end in turn. Fields of an area can be dragged together in any order to the end of any of its
categories: there the others stand before them in their order, and the categories from which they have
been taken keep the order of the others. -/
theorem drags_inTurn (hheld : ∀ step ∈ calls, step.1.heldElsewhere = false) :
    let moved := calls.map Prod.snd
    (∀ area, moved.Perm ((h.contents.list (.categories area)).map Member.id) →
      ∃ c', Call.inTurn (fun id => dragCategory id none) calls h =
          (.ok (), { h with contents := c' }) ∧
        c'.StandsAs (.categories area) moved) ∧
    ∀ home area, h.contents.areaOf? (.fields home) = some area → calls ≠ [] → moved.Nodup →
      (∀ id ∈ moved, h.contents.entryArea? .field id = some area) →
        ∃ c', Call.inTurn (fun id => moveFieldToCategory id home) calls h =
            (.ok (), { h with contents := c' }) ∧
          c'.StandsAs (.fields home)
            (((h.contents.list (.fields home)).map Member.id).filter (· ∉ moved) ++ moved) ∧
          ∀ other, other ≠ home →
            (∃ id ∈ moved, id ∈ (h.contents.list (.fields other)).map Member.id) →
              c'.StandsAs (.fields other)
                (((h.contents.list (.fields other)).map Member.id).filter (· ∉ moved)) := by
  intro moved
  refine ⟨fun area hperm => ?_, fun home area hhome hne hn hentries => ?_⟩
  · by_cases hempty : calls = []
    · subst hempty
      have hnone : h.contents.list (.categories area) = [] := List.map_eq_nil_iff.mp hperm.nil_eq.symm
      exact ⟨h.contents, rfl, by rw [hnone]; rfl, by rw [hnone]; rfl⟩
    · have hn := hperm.nodup_iff.mpr (h.contents.nodup_ids_list (.categories area))
      have hentries : ∀ id ∈ moved, h.contents.entryArea? .category id = some area := by
        intro id hid
        obtain ⟨m, hm, rfl⟩ := List.mem_map.mp (hperm.mem_iff.mp hid)
        exact entryArea?_of_mem_list hm
      obtain ⟨c', hruns, hgathered⟩ :=
        inTurn_sendTo (.categories area) hheld hempty hn rfl hentries
      refine ⟨c', hruns, ?_⟩
      have harrives := hgathered.arrives
      have hothers : ((h.contents.list (.categories area)).map Member.id).filter (· ∉ moved) = [] :=
        List.filter_eq_nil_iff.mpr fun id hid => by simpa using hperm.mem_iff.mpr hid
      rwa [hothers] at harrives
  · obtain ⟨c', hruns, hgathered⟩ :=
      inTurn_sendTo (.fields home) hheld hne hn hhome hentries
    exact ⟨c', hruns, hgathered.arrives, fun other hother hleft =>
      (hgathered.others (.fields other) rfl fun he => hother (Scope.fields.inj he)).leaves hleft⟩

/-- Three categories are dragged into another order, and a field of another category is gathered with one
of two that have been there. -/
theorem drags_inTurn_disordered :
    let k : Circumstances Unit := ⟨.builtin, 3, false, 6⟩
    let h : Holdings Unit := ⟨.disordered, ()⟩
    (∃ c', Call.inTurn (fun id => dragCategory id none) [(k, 0), ({ k with now := 9 }, 2), (k, -3)] h =
        (.ok (), { h with contents := c' }) ∧
      c'.StandsAs (.categories ⟨"core", "course", 0⟩) [0, 2, -3]) ∧
    ∃ c', Call.inTurn (fun id => moveFieldToCategory id (-3)) [(k, 4), ({ k with now := 9 }, 1)] h =
        (.ok (), { h with contents := c' }) ∧
      c'.StandsAs (.fields (-3)) [2, 4, 1] ∧ c'.StandsAs (.fields 0) [] := by
  intro k h
  have hcategories : ∀ step ∈ [(k, (0 : Id)), ({ k with now := 9 }, 2), (k, -3)],
      step.1.heldElsewhere = false := by simp [k]
  have hfields : ∀ step ∈ [(k, (4 : Id)), ({ k with now := 9 }, 1)],
      step.1.heldElsewhere = false := by simp [k]
  refine ⟨(drags_inTurn hcategories).1 _ (by decide), ?_⟩
  obtain ⟨c', hruns, harrives, hleaves⟩ := (drags_inTurn (h := h) hfields).2 (-3) ⟨"core", "course", 0⟩
    (by decide) (by simp) (by decide) (by decide)
  exact ⟨c', hruns, harrives, hleaves 0 (by decide) ⟨4, by decide, by decide⟩⟩

end Catalog

end FieldCatalog
