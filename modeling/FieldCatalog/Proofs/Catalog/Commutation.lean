import FieldCatalog.Proofs.Catalog.Locality

/-!
# Operations in different areas

Operations that act in different areas may change places. Each is local to its own area and leaves
the parts in all others alone, so it finds in its area what it would have found had the other not
been run; and the parts, which make up the whole, are the same in the end.

## Main results

* `Mutation.part_perform_of_ne`: what an operation leaves alone
* `Mutation.perform_of_part_eq`: what an operation may depend on
* `Mutation.perform_comm`: operations that act in different areas commute
-/

namespace FieldCatalog

namespace Mutation

open Contents

variable {σ : Type} {a b : Area} {k l : Circumstances σ} {h h' : Holdings σ} {m n : Mutation}

/-- An operation makes one change in the area that it concerns, or none. -/
theorem contents_perform (m : Mutation) (k : Circumstances σ) (hc : h.contents.Referential) :
    (m.perform.run k h).2.contents = h.contents ∨ ∃ area, m.areaIn h.contents = some area ∧
      Change k.now area h.contents (m.perform.run k h).2.contents :=
  Session.keeps_of_ensures (P := fun c' => c' = h.contents ∨
    ∃ area, m.areaIn h.contents = some area ∧ Change k.now area h.contents c')
    (m.ensures hc) (.inl rfl) fun _ _ hpost => hpost

/-- An operation keeps what changes keep. -/
theorem perform_keeps {P : Contents → Prop} (hP : Lasting P) (m : Mutation) (k : Circumstances σ)
    (hc : h.contents.Referential) (hp : P h.contents) : P (m.perform.run k h).2.contents := by
  rcases m.contents_perform k hc with hsame | ⟨area, -, hchange⟩
  · exact hsame ▸ hp
  · exact hP.change hc hp hchange

/-- An operation that acts in an area leaves the parts in all others alone. -/
theorem part_perform_of_ne (k : Circumstances σ) (hc : h.contents.Referential)
    (hm : m.ActsIn a h.contents) (hne : b ≠ a) :
    (m.perform.run k h).2.contents.part b = h.contents.part b := by
  rcases m.contents_perform k hc with hsame | ⟨area, harea, hchange⟩
  · rw [hsame]
  · obtain rfl := Option.some.inj (hm.areaIn_eq.symm.trans harea)
    exact hchange.sameOutside.part_eq hne

/-- An operation that acts in an area acts in it after one that acts in another. -/
theorem ActsIn.after (l : Circumstances σ) (hc : h.contents.Referential)
    (hm : m.ActsIn a h.contents) (hn : n.ActsIn b h.contents) (hne : a ≠ b) :
    m.ActsIn a (n.perform.run l h).2.contents := by
  rw [← actsIn_part, part_perform_of_ne l hc hn hne]
  exact actsIn_part.mpr hm

/-- An operation that acts in an area depends on nothing but the part in that area. -/
theorem perform_of_part_eq (hbuiltin : k.registry = .builtin) (hp : h.contents.Positive)
    (hp' : h'.contents.Positive) (hm : m.ActsIn a h.contents)
    (hpart : h'.contents.part a = h.contents.part a) (htypes : h'.types = h.types) :
    (m.perform.run k h').1 = (m.perform.run k h).1 ∧
      (m.perform.run k h').2.contents.part a = (m.perform.run k h).2.contents.part a ∧
      (m.perform.run k h').2.types = (m.perform.run k h).2.types := by
  have hm' : m.ActsIn a h'.contents := actsIn_part.mp (hpart ▸ actsIn_part.mpr hm)
  have hlocal := local_perform hbuiltin hp hm
  have hlocal' := local_perform hbuiltin hp' hm'
  have hholdings : h'.part a = h.part a := by rw [Holdings.part, Holdings.part, hpart, htypes]
  have hrun := hlocal'.part
  rw [hholdings, hlocal.part] at hrun
  obtain ⟨hresult, hleft⟩ := Prod.mk.inj hrun
  exact ⟨hresult.symm, (congrArg Holdings.contents hleft).symm,
    hlocal'.types.trans (htypes.trans hlocal.types.symm)⟩

/-- Operations that act in different areas commute, each at its own time: whichever is run first,
both give the same answers, and the same holdings are left. -/
theorem perform_comm (hc : h.contents.Referential) (hp : h.contents.Positive)
    (hk : k.registry = .builtin) (hl : l.registry = .builtin) (hm : m.ActsIn a h.contents)
    (hn : n.ActsIn b h.contents) (hne : a ≠ b) :
    (n.perform.run l (m.perform.run k h).2).1 = (n.perform.run l h).1 ∧
      (m.perform.run k (n.perform.run l h).2).1 = (m.perform.run k h).1 ∧
      (n.perform.run l (m.perform.run k h).2).2 = (m.perform.run k (n.perform.run l h).2).2 := by
  -- After either operation the other finds its own part as it was.
  have hcm := perform_keeps lasting_referential m k hc hc
  have hcn := perform_keeps lasting_referential n l hc hc
  have hm' := hm.after l hc hn hne
  have hn' := hn.after k hc hm hne.symm
  obtain ⟨hresultn, hpartn, htypesn⟩ := perform_of_part_eq hl hp
    (perform_keeps lasting_positive m k hc hp) hn (part_perform_of_ne k hc hm hne.symm)
    (local_perform hk hp hm).types
  obtain ⟨hresultm, hpartm, htypesm⟩ := perform_of_part_eq hk hp
    (perform_keeps lasting_positive n l hc hp) hm (part_perform_of_ne l hc hn hne)
    (local_perform hl hp hn).types
  refine ⟨hresultn, hresultm, ?_⟩
  have hcontents : (n.perform.run l (m.perform.run k h).2).2.contents =
      (m.perform.run k (n.perform.run l h).2).2.contents := by
    -- The parts are compared one by one: that of the one area, of the other, and of any third one.
    refine eq_of_part_eq (perform_keeps lasting_referential n l hcm hcm)
      (perform_keeps lasting_referential m k hcn hcn) fun area => ?_
    by_cases hb : area = b
    · subst hb
      rw [hpartn, part_perform_of_ne k hcn hm' hne.symm]
    · rw [part_perform_of_ne l hcm hn' hb]
      by_cases ha : area = a
      · subst ha
        exact hpartm.symm
      · rw [part_perform_of_ne k hc hm ha, part_perform_of_ne k hcn hm' ha,
          part_perform_of_ne l hc hn hb]
  have htypes : (n.perform.run l (m.perform.run k h).2).2.types =
      (m.perform.run k (n.perform.run l h).2).2.types :=
    calc (n.perform.run l (m.perform.run k h).2).2.types
        = (n.perform.run l h).2.types := htypesn
      _ = h.types := (local_perform hl hp hn).types
      _ = (m.perform.run k h).2.types := (local_perform hk hp hm).types.symm
      _ = (m.perform.run k (n.perform.run l h).2).2.types := htypesm.symm
  exact Holdings.ext hcontents htypes

/-- Two areas, either with two categories, and positions that no catalog would have left behind. -/
def adjoining : Contents where
  categories := ⟨[⟨1, "General", "", ⟨"core", "course", 0⟩, 7, 5, 5⟩,
    ⟨2, "Profile", "", ⟨"core", "user", 0⟩, 7, 5, 5⟩,
    ⟨3, "Planning", "", ⟨"core", "course", 0⟩, -1, 5, 5⟩,
    ⟨4, "Contact", "", ⟨"core", "user", 0⟩, -1, 5, 5⟩], by decide⟩
  fields := ⟨[⟨1, "level", "Level", "text", "", 1, 4, "\x7b\x7d", 5, 5⟩,
    ⟨2, "nickname", "Nickname", "text", "", 2, 4, "\x7b\x7d", 5, 5⟩,
    ⟨3, "phone", "Phone", "text", "", 4, 0, "\x7b\x7d", 5, 5⟩], by decide⟩

/-- A field of the one area is dragged into another category, while a category of the other area is
dragged to the front. -/
theorem perform_comm_adjoining :
    let k : Circumstances Unit := ⟨.builtin, 3, false, 6⟩
    let l : Circumstances Unit := ⟨.builtin, 3, false, 8⟩
    let h : Holdings Unit := ⟨adjoining, ()⟩
    let m : Mutation := .dragField 1 (some 3) none
    let n : Mutation := .dragCategory 2 (some 4)
    (n.perform.run l (m.perform.run k h).2).1 = (n.perform.run l h).1 ∧
      (m.perform.run k (n.perform.run l h).2).1 = (m.perform.run k h).1 ∧
      (n.perform.run l (m.perform.run k h).2).2 = (m.perform.run k (n.perform.run l h).2).2 := by
  intro k l h m n
  have hm : m.ActsIn ⟨"core", "course", 0⟩ h.contents := by
    refine ⟨rfl, fun home hhome => ?_, fun b hb => absurd hb (Option.not_mem_none b)⟩
    obtain rfl := Option.some.inj hhome
    rfl
  have hn : n.ActsIn ⟨"core", "user", 0⟩ h.contents := by
    refine ⟨rfl, fun b hb => ?_⟩
    obtain rfl := Option.some.inj hb
    rfl
  exact perform_comm (by decide) ⟨by decide, by decide⟩ rfl rfl hm hn (by decide)

end Mutation

end FieldCatalog
