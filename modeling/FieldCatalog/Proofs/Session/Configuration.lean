import FieldCatalog.Proofs.Catalog.Configuration
import FieldCatalog.Proofs.Session.Invariants

/-!
# Configurations in sessions

In a session that begins without rows and with the built-in types, every configuration that is stored
can be read and saved again: its text is read as an object, the type of the field accepts the object,
and what the type prepares of it is the text that is stored already. The configurations that come in
must be readable themselves, without doubles and not nested too deep.

## Main definitions

* `Session.Configured`: every configuration is confirmed by the type of its field
* `Session.Event.configdata?`: the configuration that an event brings with it

## Main results

* `Session.step_configured`, `Session.run_configured`: one event, and any events
* `Session.configdata_confirmed`: every stored configuration is confirmed by its type, and saving it
  again succeeds and changes nothing but the time
-/

namespace FieldCatalog.Session

open Contents

variable {σ : Type} {storage : Storage} {attempts : Nat} {memory : σ} {s : Session σ}

/-! ## Types -/

/-- No event adds a type or takes one away. -/
theorem registry_step (now : Int) (event : Event σ) :
    (s.step now event).2.registry = s.registry := by
  cases event with
  | reopen =>
    cases hstorage : s.storage <;> simp only [step, hstorage]
  | _ => rfl

/-! ## Configurations -/

/-- Every configuration is confirmed by the type of its field. -/
def Configured (s : Session σ) : Prop :=
  s.holdings.contents.Configured s.registry.Confirms

/-- The configuration that an event brings with it. -/
def Event.configdata? : Event σ → Option Json
  | .perform m => m.configdata?
  | .act a => a.configdata?
  | _ => none

/-- With the built-in types, an event with a readable configuration, or with none, leaves confirmed
configurations behind. -/
theorem step_configured (now : Int) (event : Event σ) (hregistry : s.registry = .builtin)
    (hreadable : ∀ json, event.configdata? = some json → json.Readable) (hc : s.Configured) :
    (s.step now event).2.Configured := by
  -- What a built-in type prepares of the configuration is confirmed by that type.
  have hfit : ∀ tag outlook state text state', (s.circumstances now).registry.prepare tag
      event.configdata? outlook state = (.ok text, state') → s.registry.Confirms tag text := by
    intro tag outlook state text state' hprepare
    have hbuiltin : (s.circumstances now).registry = .builtin := hregistry
    rw [hbuiltin] at hprepare
    rw [hregistry]
    exact Registry.confirms_of_prepare hreadable hprepare
  unfold Configured
  rw [registry_step]
  cases event with
  | perform m => exact m.keeps_configured hfit s.holdings hc
  | act a =>
    have hkeeps := a.keeps_configured hfit s.holdings hc
    rw [← a.holdings_run] at hkeeps
    exact hkeeps
  | holdLock => exact hc
  | releaseLock => exact hc
  | reopen =>
    cases hstorage : s.storage with
    | memory =>
      simp only [step, hstorage]
      exact configured_empty
    | file =>
      simp only [step, hstorage]
      exact hc
  | retune change => exact hc

theorem run_configured (events : List (Int × Event σ)) (hregistry : s.registry = .builtin)
    (hreadable : ∀ event ∈ events, ∀ json, event.2.configdata? = some json → json.Readable)
    (hc : s.Configured) : (s.run events).Configured := by
  -- Induction on the events, for all sessions with the built-in types.
  induction events generalizing s with
  | nil => exact hc
  | cons event events ih =>
    have hstep := step_configured event.1 event.2 hregistry (hreadable event List.mem_cons_self) hc
    exact ih ((registry_step _ _).trans hregistry)
      (fun event hmem => hreadable event (.tail _ hmem)) hstep

/-- Saving the configuration of a field again succeeds and changes nothing but the time. -/
theorem resave_of_confirms {row : Field} (hr : s.holdings.contents.Referential)
    (hp : s.holdings.contents.Positive) (hheld : s.heldElsewhere = false)
    (hrow : row ∈ s.holdings.contents.fields) {members : Json.Members}
    (hprepare : ∀ outlook state,
      s.registry.prepare row.type (some (.object members)) outlook state =
        (.ok row.configdata, state)) (now : Int) :
    ∃ h', (Catalog.updateField row.id ⟨none, none, some (.object members)⟩).run
        (s.circumstances now) s.holdings = (.ok { row with timemodified := now }, h') ∧
      h'.contents.field? row.id = some { row with timemodified := now } := by
  have hold : s.holdings.contents.field? row.id = some row := field?_eq_some_iff.mpr ⟨hrow, rfl⟩
  refine ⟨_, Catalog.updateField_of_prepare (k := s.circumstances now) hr hheld hold hprepare, ?_⟩
  -- The number of the field is positive, so the row is put back where it was.
  have hstored := hp.storedField_eq { row with timemodified := now } hold rfl
  show (s.holdings.contents.withField (s.holdings.contents.storedField
    { row with timemodified := now })).field? row.id = _
  rw [hstored]
  exact field?_withField { row with timemodified := now }

/-- In a session that begins without rows and with the built-in types, every field has a known type,
and its configuration is the text of an object that its type accepts and prepares as this very text.
So saving the configuration again succeeds and leaves it as it is, unless a lock prevents it. -/
theorem configdata_confirmed (hstart : start storage attempts (.seed [] []) [] memory = .ok s)
    (events : List (Int × Event σ))
    (hreadable : ∀ event ∈ events, ∀ json, event.2.configdata? = some json → json.Readable) :
    ∀ row ∈ (s.run events).holdings.contents.fields, ∃ type members,
      (s.run events).registry.resolve row.type = .ok type ∧
      Json.parse row.configdata = .ok (.object members) ∧
      (∀ outlook state, type.check members outlook state = (.ok (), state)) ∧
      (∀ outlook state, (s.run events).registry.prepare row.type (some (.object members)) outlook
        state = (.ok row.configdata, state)) ∧
      ((s.run events).heldElsewhere = false → ∀ now, ∃ h',
        (Catalog.updateField row.id ⟨none, none, some (.object members)⟩).run
          ((s.run events).circumstances now) (s.run events).holdings =
            (.ok { row with timemodified := now }, h') ∧
        h'.contents.field? row.id = some { row with timemodified := now }) := by
  have hregistry : s.registry = .builtin := by
    cases hstart
    rfl
  have hfirst : s.Configured := by
    cases hstart
    exact configured_empty
  have hconfigured := run_configured events hregistry hreadable hfirst
  have hrefer := run_keeps lasting_referential events (referential_start hstart)
    (referential_start hstart)
  have hpositive := run_keeps lasting_positive events (referential_start hstart)
    (positive_start hstart (fun _ h => by cases h) fun _ h => by cases h)
  intro row hrow
  obtain ⟨type, members, hresolve, hparse, haccepts, hprepare⟩ := hconfigured row hrow
  exact ⟨type, members, hresolve, hparse, haccepts, hprepare, fun hheld =>
    resave_of_confirms hrefer hpositive hheld hrow hprepare⟩

/-- A session with the built-in types and without rows. -/
def blank : Session Unit where
  registry := .builtin
  attempts := 3
  storage := .file
  heldElsewhere := false
  holdings := ⟨.empty, ()⟩

/-- Configurations that are accepted and refused, and a field that moves to another category. -/
def configuringEvents : List (Int × Event Unit) :=
  [(5, .perform (.createCategory ⟨"core", "course", 0⟩ none)),
    (6, .act (.createField 1 ⟨"note", "Note", "textarea", "", some Action.sampleConfigdata⟩)),
    (7, .perform (.createField 1 ⟨"size", "Size", "text", "", none⟩)),
    (8, .perform (.updateField 2 ⟨none, none, some (.object [("maxlength", .integer 40)])⟩)),
    (9, .perform (.updateField 2 ⟨none, none, some (.object [("maxlength", .integer 0)])⟩)),
    (10, .perform (.createCategory ⟨"core", "course", 0⟩ none)),
    (11, .act (.dragField 2 (some 2) none))]

theorem readable_configuringEvents :
    ∀ event ∈ configuringEvents, ∀ json, event.2.configdata? = some json → json.Readable := by
  have hlength : ∀ n, Json.InRange n → (Json.object [("maxlength", .integer n)]).Readable :=
    fun n hn => ⟨⟨List.pairwise_singleton _ _, hn, trivial⟩, ⟨trivial, trivial⟩,
      show 1 ≤ Json.nestingLimit by decide⟩
  intro event hevent json hjson
  simp only [configuringEvents, List.mem_cons, List.not_mem_nil, or_false] at hevent
  rcases hevent with rfl | rfl | rfl | rfl | rfl | rfl | rfl <;> cases hjson
  · exact Action.readable_sampleConfigdata
  · exact hlength 40 (by decide)
  · exact hlength 0 (by decide)

theorem configdata_confirmed_blank :
    let s := blank.run configuringEvents
    start .file 3 (.seed [] []) [] () = .ok blank ∧ s.heldElsewhere = false ∧
    (s.holdings.contents.fields.rows.map fun row => (row.id, row.categoryid)) = [(1, 1), (2, 2)] ∧
    ∀ row ∈ s.holdings.contents.fields, ∃ members,
      Json.parse row.configdata = .ok (.object members) ∧
      ∃ h', (Catalog.updateField row.id ⟨none, none, some (.object members)⟩).run
        (s.circumstances 12) s.holdings = (.ok { row with timemodified := 12 }, h') := by
  intro s
  have hheld : s.heldElsewhere = false := by decide
  refine ⟨rfl, hheld, by decide, fun row hrow => ?_⟩
  obtain ⟨_, members, -, hparse, -, -, hresave⟩ :=
    configdata_confirmed (s := blank) rfl configuringEvents readable_configuringEvents row hrow
  obtain ⟨h', hrun, -⟩ := hresave hheld 12
  exact ⟨members, hparse, h', hrun⟩

end FieldCatalog.Session
