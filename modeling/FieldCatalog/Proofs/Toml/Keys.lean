import FieldCatalog.Toml.Parser
import Mathlib.Data.List.Nodup

/-!
# The keys of a document

Headers, pairs and dotted keys reach deep into a document, but at its top each of them gives a value
to one key. So a document that is read has no key twice.

## Main definitions

* `Toml.SetsOne`: a change of a table that gives a value to one of its keys

## Main results

* `Toml.exists_setEntry_of_add`: what a statement does to a document
* `Toml.nodup_keys_of_parse`: the keys of a document are distinct
-/

namespace FieldCatalog.Toml

variable {entries : Entries} {f : Entries → Option Entries}

/-- A key that is given a value stays at its place, or comes after the others. -/
theorem map_fst_setEntry (key : String) (value : Toml) (entries : Entries) :
    (setEntry key value entries).map Prod.fst =
      if key ∈ entries.map Prod.fst then entries.map Prod.fst else entries.map Prod.fst ++ [key] := by
  induction entries with
  | nil => rfl
  | cons entry rest ih =>
    unfold setEntry
    split
    · next hkey => simp [hkey]
    · next hkey =>
      simp only [List.map_cons, ih, List.mem_cons, hkey, false_or]
      split <;> rfl

theorem nodup_setEntry (key : String) (value : Toml) (h : (entries.map Prod.fst).Nodup) :
    ((setEntry key value entries).map Prod.fst).Nodup := by
  rw [map_fst_setEntry]
  split
  · exact h
  · next hkey => exact List.concat_eq_append ▸ h.concat hkey

/-- A change of a table that gives a value to one of its keys, if it is possible. -/
def SetsOne (f : Entries → Option Entries) : Prop :=
  ∀ entries entries', f entries = some entries' → ∃ key value, entries' = setEntry key value entries

/-! ## Headers and pairs -/

theorem setsOne_openTable (key : String) : SetsOne (openTable key) := by
  intro entries entries' h
  unfold openTable at h
  split at h
  · exact ⟨key, _, (Option.some.inj h).symm⟩
  · exact ⟨key, _, (Option.some.inj h).symm⟩
  · cases h

theorem setsOne_openEntry (key : String) : SetsOne (openEntry key) := by
  intro entries entries' h
  unfold openEntry at h
  split at h
  · exact ⟨key, _, (Option.some.inj h).symm⟩
  · exact ⟨key, _, (Option.some.inj h).symm⟩
  · cases h

/-- One key is given what becomes of a part of the table. -/
theorem exists_setEntry_of_bind {α : Type} {key : String} {part : Option α} (wrap : α → Toml)
    {entries' : Entries}
    (h : (part.bind fun a => some (setEntry key (wrap a) entries)) = some entries') :
    ∃ key value, entries' = setEntry key value entries := by
  obtain ⟨a, -, he⟩ := Option.bind_eq_some_iff.mp h
  exact ⟨key, wrap a, (Option.some.inj he).symm⟩

theorem setsOne_addPair (value : Toml) (steps : List String) : SetsOne (addPair value steps) := by
  intro entries entries' h
  unfold addPair at h
  split at h
  · cases h
  · split at h
    · exact ⟨_, _, (Option.some.inj h).symm⟩
    · cases h
  · split at h
    · exact exists_setEntry_of_bind (.table .dotted) h
    · exact exists_setEntry_of_bind (.table .dotted) h
    · exact exists_setEntry_of_bind (.table .dotted) h
    · split at h
      · cases h
      · split at h
        · exact exists_setEntry_of_bind _ h
        · cases h
    · cases h

theorem setsOne_alongHeader (hf : SetsOne f) (path : List String) : SetsOne (alongHeader f path) := by
  intro entries entries' h
  cases path with
  | nil => exact hf entries entries' h
  | cons key path => exact exists_setEntry_of_bind id h

/-! ## Documents -/

/-- At its top a statement gives a value to one key of the document. -/
theorem exists_setEntry_of_add {d d' : Document} {s : Statement} (h : d.add s = some d') :
    ∃ key value, d'.entries = setEntry key value d.entries := by
  cases s with
  | tableHeader path key =>
    obtain ⟨entries, halong, he⟩ := Option.bind_eq_some_iff.mp h
    cases he
    exact setsOne_alongHeader (setsOne_openTable key) path _ _ halong
  | entryHeader path key =>
    obtain ⟨entries, halong, he⟩ := Option.bind_eq_some_iff.mp h
    cases he
    exact setsOne_alongHeader (setsOne_openEntry key) path _ _ halong
  | pair steps value =>
    obtain ⟨entries, halong, he⟩ := Option.bind_eq_some_iff.mp h
    cases he
    exact setsOne_alongHeader (setsOne_addPair value steps) d.header _ _ halong

theorem nodup_keys_of_foldlM {statements : List Statement} {d d' : Document}
    (h : statements.foldlM Document.add d = some d') (hd : (d.entries.map Prod.fst).Nodup) :
    (d'.entries.map Prod.fst).Nodup := by
  induction statements generalizing d with
  | nil => cases h; exact hd
  | cons s rest ih =>
    obtain ⟨next, hadd, hrest⟩ := Option.bind_eq_some_iff.mp (List.foldlM_cons.symm.trans h)
    obtain ⟨key, value, he⟩ := exists_setEntry_of_add hadd
    exact ih hrest (he ▸ nodup_setEntry key value hd)

/-- The keys of a document are distinct: a text that repeats one is refused. -/
theorem nodup_keys_of_parse {text : String} (h : parse text = some entries) :
    (entries.map Prod.fst).Nodup := by
  obtain ⟨statements, -, hassemble⟩ := Option.bind_eq_some_iff.mp h
  obtain ⟨d, hfold, rfl⟩ := Option.map_eq_some_iff.mp hassemble
  exact nodup_keys_of_foldlM hfold List.nodup_nil

end FieldCatalog.Toml
