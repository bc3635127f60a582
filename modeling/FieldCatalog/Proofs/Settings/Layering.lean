import FieldCatalog.Proofs.Results
import FieldCatalog.Proofs.Toml.Keys
import FieldCatalog.Settings

/-!
# Layers of settings

A setting is what the variable of its name says, or else the entry of its name in the file, or else its
default. This is so as long as no key is a path into a setting, and no two variables name the same key;
a document has no key twice anyhow. What counts for a setting is all that is converted, so a value that
is overridden can be as bad as it likes, and so can what is no setting at all.

None of this depends on how values are converted. The conversions in use keep numbers within their
ranges.

## Main definitions

* `Settings.Names`, `Settings.Sets`: what a variable of the environment is for
* `Settings.IsPlain`: a key that is no path
* `Settings.Proper`: a file and an environment with plain keys, each given once
* `Settings.Effective`: what counts for a setting

## Main results

* `Settings.environmentKey?_eq_some_iff`: the key that a variable names
* `Settings.Layer.value?_eq_some_iff`: what a layer of plain keys gives for a setting
* `Settings.Proper.effective_iff`: what counts for a setting is what the layers give
* `Settings.loadBy_outcomes`: which settings a file and an environment lead to
* `Settings.inRange_of_load`: settings are within their ranges
-/

namespace FieldCatalog.Settings

variable {name key setting text : String} {value : Value}

/-! ## Names of variables -/

/-- A variable of the environment names a key: its name is a fixed word, an underscore and the key, in
any case. -/
def Names (name key : String) : Prop :=
  name.toList.map lowerCase = "fieldkeeper_".toList ++ key.toList

instance : Decidable (Names name key) :=
  inferInstanceAs (Decidable (_ = _))

theorem environmentKey?_eq_some_iff : environmentKey? name = some key ↔ Names name key := by
  unfold environmentKey? Names
  generalize name.toList.map lowerCase = lower
  generalize "fieldkeeper_".toList = start
  dsimp only
  constructor
  · intro h
    obtain ⟨hstart, hrest⟩ := Option.ite_none_right_eq_some.mp h
    rw [← Option.some.inj hrest, String.toList_ofList]
    exact (List.take_append_drop start.length lower).symm.trans
      (congrArg (· ++ lower.drop start.length) hstart)
  · rintro rfl
    rw [List.take_left, if_pos rfl, List.drop_left, String.ofList_toList]

/-- A variable of the environment gives a text for a key. -/
def Sets (environment : List (String × String)) (key text : String) : Prop :=
  ∃ name, (name, text) ∈ environment ∧ Names name key

/-! ## Layers of plain keys -/

/-- A key that is no path: it has neither a point nor a bracket, as no identifier has. -/
def IsPlain (key : String) : Prop :=
  '.' ∉ key.toList ∧ '[' ∉ key.toList

instance : Decidable (IsPlain key) :=
  inferInstanceAs (Decidable (_ ∧ _))

/-- Steps begin with a point or a bracket. -/
theorem head_of_areSteps {c : Char} {cs : List Char} (h : areSteps (c :: cs) = true) :
    c = '.' ∨ c = '[' := by
  unfold areSteps at h
  split at h
  · next he => cases he
  · next he => exact .inl (List.cons.inj he).1
  · next he => exact .inr (List.cons.inj he).1
  · cases h

/-- A plain key leads into no setting. -/
theorem leadsInto_eq_false (h : IsPlain key) : leadsInto setting key = false := by
  unfold leadsInto
  cases hsteps : key.toList.dropWhile isWordChar with
  | nil => simp
  | cons c cs =>
    have hc : c ∈ key.toList :=
      (List.dropWhile_suffix isWordChar).subset (hsteps ▸ List.mem_cons_self)
    have hsteps : areSteps (c :: cs) = false := by
      rw [Bool.eq_false_iff]
      intro hareSteps
      rcases head_of_areSteps hareSteps with rfl | rfl
      · exact h.1 hc
      · exact h.2 hc
    dsimp only
    rw [hsteps, Bool.and_false]

/-- A plain key gives something for the setting of its name only. -/
theorem given_eq_some_iff {entry : String × Value} (h : IsPlain entry.1) :
    (if entry.1 = setting then some entry.2
      else if leadsInto setting entry.1 then some .composite else none) = some value ↔
      entry = (setting, value) := by
  rw [leadsInto_eq_false h, if_neg Bool.false_ne_true, Option.ite_none_right_eq_some, Prod.ext_iff,
    Option.some_inj]

section

variable {layer : Layer} (hplain : ∀ entry ∈ layer, IsPlain entry.1)
include hplain

theorem Layer.mem_of_value?_eq_some (h : layer.value? setting = some value) :
    (setting, value) ∈ layer := by
  obtain ⟨entry, hentry, hgiven⟩ := List.exists_of_findSome?_eq_some h
  have hentry := List.mem_reverse.mp hentry
  exact (given_eq_some_iff (hplain entry hentry)).mp hgiven ▸ hentry

theorem Layer.value?_eq_none_iff :
    layer.value? setting = none ↔ ∀ value, (setting, value) ∉ layer := by
  constructor
  · intro h value hmem
    have hnone := List.findSome?_eq_none_iff.mp h _ (List.mem_reverse.mpr hmem)
    rw [(given_eq_some_iff (hplain _ hmem)).mpr rfl] at hnone
    cases hnone
  · intro h
    refine Option.eq_none_iff_forall_ne_some.mpr fun value hvalue => ?_
    exact h value (Layer.mem_of_value?_eq_some hplain hvalue)

/-- A layer of plain keys, of which each occurs once, gives for a setting what goes with its name. -/
theorem Layer.value?_eq_some_iff (hkeys : (layer.map Prod.fst).Nodup) :
    layer.value? setting = some value ↔ (setting, value) ∈ layer := by
  refine ⟨Layer.mem_of_value?_eq_some hplain, fun h => ?_⟩
  cases hvalue : layer.value? setting with
  | none => exact absurd h ((Layer.value?_eq_none_iff hplain).mp hvalue value)
  | some other =>
    have hother := Layer.mem_of_value?_eq_some hplain hvalue
    exact congrArg some (Prod.ext_iff.mp (List.inj_on_of_nodup_map hkeys hother h rfl)).2

end

theorem mem_fileLayer_iff {entries : Toml.Entries} :
    (key, value) ∈ fileLayer entries ↔ ∃ given, (key, given) ∈ entries ∧ value = .ofToml given := by
  simp only [fileLayer, List.mem_map, Prod.mk.injEq, Prod.exists]
  constructor
  · rintro ⟨key, given, hmem, rfl, rfl⟩
    exact ⟨given, hmem, rfl⟩
  · rintro ⟨given, hmem, rfl⟩
    exact ⟨key, given, hmem, rfl, rfl⟩

theorem mem_environmentLayer_iff {environment : List (String × String)} :
    (key, value) ∈ environmentLayer environment ↔
      ∃ text, Sets environment key text ∧ value = .text text := by
  simp only [environmentLayer, List.mem_filterMap, Option.map_eq_some_iff, Prod.mk.injEq,
    environmentKey?_eq_some_iff, Prod.exists, Sets]
  constructor
  · rintro ⟨name, text, hmem, key, hname, rfl, rfl⟩
    exact ⟨text, ⟨name, hmem, hname⟩, rfl⟩
  · rintro ⟨text, ⟨name, hmem, hname⟩, rfl⟩
    exact ⟨name, text, hmem, key, hname, rfl, rfl⟩

/-! ## What counts for a setting -/

/-- What a file contains: without a file nothing, and else what is read from it. -/
def Reads (file : Option String) (entries : Toml.Entries) : Prop :=
  match file with
  | none => entries = []
  | some text => Toml.parse (withoutMark text) = some entries

/-- A file that can be read and an environment of which all keys are plain, with no two variables for
the same key. -/
structure Proper (file : Option String) (environment : List (String × String))
    (entries : Toml.Entries) : Prop where
  reads : Reads file entries
  plainEntries : ∀ entry ∈ entries, IsPlain entry.1
  plainVariables : ∀ pair ∈ environment, ∀ key, Names pair.1 key → IsPlain key
  single : environment.Pairwise fun a b => ∀ key, Names a.1 key → ¬ Names b.1 key

/-- What counts for a setting, none for its default: a variable, or else an entry of the file. -/
inductive Effective (entries : Toml.Entries) (environment : List (String × String)) (key : Key) :
    Option Value → Prop
  | inEnvironment {text : String} (h : Sets environment key.name text) :
    Effective entries environment key (some (.text text))
  | inFile {given : Toml} (hunset : ∀ text, ¬ Sets environment key.name text)
    (h : (key.name, given) ∈ entries) : Effective entries environment key (some (.ofToml given))
  | nowhere (hunset : ∀ text, ¬ Sets environment key.name text)
    (h : ∀ given, (key.name, given) ∉ entries) : Effective entries environment key none

/-- What counts for a setting depends on the variables for it, and on the entries of its name if there
are no such variables. -/
theorem Effective.congr {entries entries' : Toml.Entries}
    {environment environment' : List (String × String)} {key : Key} {value : Option Value}
    (h : Effective entries environment key value)
    (hvariables : ∀ text, Sets environment' key.name text ↔ Sets environment key.name text)
    (hentries : (∀ text, ¬ Sets environment key.name text) →
      ∀ given, (key.name, given) ∈ entries' ↔ (key.name, given) ∈ entries) :
    Effective entries' environment' key value := by
  cases h with
  | inEnvironment hsets => exact .inEnvironment ((hvariables _).mpr hsets)
  | inFile hunset hmem =>
    exact .inFile (fun text => mt (hvariables text).mp (hunset text)) ((hentries hunset _).mpr hmem)
  | nowhere hunset habsent =>
    exact .nowhere (fun text => mt (hvariables text).mp (hunset text))
      fun given => mt (hentries hunset given).mp (habsent given)

namespace Proper

variable {file : Option String} {environment : List (String × String)} {entries : Toml.Entries}

/-- What is asked of an environment, by the keys that its variables name. -/
theorem of_keys (reads : Reads file entries) (plainEntries : ∀ entry ∈ entries, IsPlain entry.1)
    (plainVariables : ∀ pair ∈ environment, ∀ key ∈ environmentKey? pair.1, IsPlain key)
    (single : (environment.filterMap fun pair => environmentKey? pair.1).Nodup) :
    Proper file environment entries where
  reads := reads
  plainEntries := plainEntries
  plainVariables pair hpair key hkey :=
    plainVariables pair hpair key (environmentKey?_eq_some_iff.mpr hkey)
  single := by
    refine (List.pairwise_filterMap.mp single).imp fun {a b} hab key ha hb => ?_
    exact hab key (environmentKey?_eq_some_iff.mpr ha) key (environmentKey?_eq_some_iff.mpr hb) rfl

variable (h : Proper file environment entries)
include h

theorem plain_environmentLayer : ∀ entry ∈ environmentLayer environment, IsPlain entry.1 := by
  rintro ⟨key, value⟩ hmem
  obtain ⟨text, ⟨name, hname, hnames⟩, -⟩ := mem_environmentLayer_iff.mp hmem
  exact h.plainVariables _ hname key hnames

theorem nodup_environmentLayer : ((environmentLayer environment).map Prod.fst).Nodup := by
  rw [List.Nodup, List.pairwise_map, environmentLayer, List.pairwise_filterMap]
  refine h.single.imp fun {a b} hab entry ha entry' hb he => ?_
  obtain ⟨key, hkey, rfl⟩ := Option.map_eq_some_iff.mp ha
  obtain ⟨key', hkey', rfl⟩ := Option.map_eq_some_iff.mp hb
  obtain rfl : key = key' := he
  exact hab key (environmentKey?_eq_some_iff.mp hkey) (environmentKey?_eq_some_iff.mp hkey')

theorem plain_fileLayer : ∀ entry ∈ fileLayer entries, IsPlain entry.1 := by
  rintro ⟨key, value⟩ hmem
  obtain ⟨given, hgiven, -⟩ := mem_fileLayer_iff.mp hmem
  exact h.plainEntries _ hgiven

theorem nodup_fileLayer : ((fileLayer entries).map Prod.fst).Nodup := by
  have hkeys : (fileLayer entries).map Prod.fst = entries.map Prod.fst := List.map_map
  rw [hkeys]
  have hreads := h.reads
  unfold Reads at hreads
  split at hreads
  · rw [hreads]
    exact List.nodup_nil
  · exact Toml.nodup_keys_of_parse hreads

theorem environment_eq_some_iff : (environmentLayer environment).value? setting = some value ↔
    ∃ text, Sets environment setting text ∧ value = .text text :=
  (Layer.value?_eq_some_iff h.plain_environmentLayer h.nodup_environmentLayer).trans
    mem_environmentLayer_iff

theorem sets_iff : Sets environment setting text ↔
    (environmentLayer environment).value? setting = some (.text text) := by
  rw [h.environment_eq_some_iff]
  simp only [Value.text.injEq, exists_eq_right']

theorem environment_eq_none_iff : (environmentLayer environment).value? setting = none ↔
    ∀ text, ¬ Sets environment setting text := by
  simp only [Option.eq_none_iff_forall_ne_some, ne_eq, h.environment_eq_some_iff, not_exists, not_and]
  exact ⟨fun h text hsets => h _ text hsets rfl, fun h _ text hsets _ => h text hsets⟩

theorem file_eq_some_iff : (fileLayer entries).value? setting = some value ↔
    ∃ given, (setting, given) ∈ entries ∧ value = .ofToml given :=
  (Layer.value?_eq_some_iff h.plain_fileLayer h.nodup_fileLayer).trans mem_fileLayer_iff

theorem file_eq_none_iff :
    (fileLayer entries).value? setting = none ↔ ∀ given, (setting, given) ∉ entries := by
  simp only [Option.eq_none_iff_forall_ne_some, ne_eq, h.file_eq_some_iff, not_exists, not_and]
  exact ⟨fun h given hmem => h _ given hmem rfl, fun h _ given hmem _ => h given hmem⟩

/-- What counts for a setting is what the layers give. -/
theorem effective_iff {key : Key} {value : Option Value} :
    Effective entries environment key value ↔
      overriding (fileLayer entries) (environmentLayer environment) key.name = value := by
  unfold overriding
  constructor
  · intro heffective
    cases heffective with
    | inEnvironment hsets =>
      rw [h.environment_eq_some_iff.mpr ⟨_, hsets, rfl⟩]
      rfl
    | inFile hunset hmem =>
      rw [h.environment_eq_none_iff.mpr hunset, h.file_eq_some_iff.mpr ⟨_, hmem, rfl⟩]
      rfl
    | nowhere hunset habsent =>
      rw [h.environment_eq_none_iff.mpr hunset, h.file_eq_none_iff.mpr habsent]
      rfl
  · rintro rfl
    cases hvariable : (environmentLayer environment).value? key.name with
    | some value =>
      obtain ⟨text, hsets, rfl⟩ := h.environment_eq_some_iff.mp hvariable
      exact .inEnvironment hsets
    | none =>
      have hunset := h.environment_eq_none_iff.mp hvariable
      cases hentry : (fileLayer entries).value? key.name with
      | some value =>
        obtain ⟨given, hmem, rfl⟩ := h.file_eq_some_iff.mp hentry
        exact .inFile hunset hmem
      | none => exact .nowhere hunset (h.file_eq_none_iff.mp hentry)

end Proper

/-! ## Settings -/

variable {coercion : Coercion} {file environment : Layer} {s : Settings}

/-- Layers lead to the settings that every single setting leads to. -/
theorem ofLayers_eq_ok_iff : ofLayers coercion file environment = .ok s ↔
    ∀ key, effective coercion key (overriding file environment key.name) = .ok (s.get key) := by
  constructor
  · intro h
    obtain ⟨database, hdatabase, h⟩ := bind_eq_ok_iff.mp h
    obtain ⟨listen, hlisten, h⟩ := bind_eq_ok_iff.mp h
    obtain ⟨logLevel, hlogLevel, h⟩ := bind_eq_ok_iff.mp h
    obtain ⟨lockTimeoutMs, hlockTimeoutMs, h⟩ := bind_eq_ok_iff.mp h
    obtain ⟨busyTimeoutMs, hbusyTimeoutMs, h⟩ := bind_eq_ok_iff.mp h
    obtain ⟨retryAttempts, hretryAttempts, h⟩ := bind_eq_ok_iff.mp h
    obtain ⟨retryBackoffMs, hretryBackoffMs, h⟩ := bind_eq_ok_iff.mp h
    cases h
    intro key
    cases key <;> assumption
  · intro h
    simp only [ofLayers, h]
    rfl

/-- Layers lead to the same if they give the same for every setting. -/
theorem ofLayers_congr {file' environment' : Layer}
    (h : ∀ key : Key, overriding file environment key.name = overriding file' environment' key.name) :
    ofLayers coercion file environment = ofLayers coercion file' environment' := by
  simp only [ofLayers, h]

/-- Settings fail for their configuration only. -/
theorem failsWith_ofLayers :
    FailsWith (fun e => ∃ text, e = .config text) (ofLayers coercion file environment) := by
  have hsetting (key : Key) (value : Option Value) :
      FailsWith (fun e => ∃ text, e = .config text) (effective coercion key value) := by
    unfold effective
    split
    · exact .ok _
    · split
      · exact .ok _
      · exact .error ⟨_, rfl⟩
  unfold ofLayers
  refine .bind (hsetting _ _) fun _ => .bind (hsetting _ _) fun _ => .bind (hsetting _ _) fun _ =>
    .bind (hsetting _ _) fun _ => .bind (hsetting _ _) fun _ => .bind (hsetting _ _) fun _ =>
    .bind (hsetting _ _) fun _ => .ok _

/-- What counts for a setting, converted to its kind and range. A default needs no conversion. -/
def Key.outcome? (coercion : Coercion) (key : Key) : Option Value → Option key.Kind
  | none => some (defaults.get key)
  | some value => key.convert coercion value

theorem effective_eq_ok_iff {key : Key} {value : Option Value} {a : key.Kind} :
    effective coercion key value = .ok a ↔ key.outcome? coercion value = some a := by
  unfold effective Key.outcome?
  split
  · rw [Except.ok.injEq, Option.some_inj]
  · split <;> simp [*]

/-- What holds of some value of each kind holds of the values of some settings. -/
theorem exists_get {P : (key : Key) → key.Kind → Prop} (h : ∀ key, ∃ a, P key a) :
    ∃ s : Settings, ∀ key, P key (s.get key) := by
  choose f hf using h
  refine ⟨⟨f .database, f .listen, f .logLevel, f .lockTimeoutMs, f .busyTimeoutMs,
    f .retryAttempts, f .retryBackoffMs⟩, fun key => ?_⟩
  cases key <;> exact hf _

/-- A file that can be read is the layer of its entries. -/
theorem loadBy_of_reads {file : Option String} {entries : Toml.Entries} (h : Reads file entries)
    (environment : List (String × String)) : loadBy coercion file environment =
      ofLayers coercion (fileLayer entries) (environmentLayer environment) := by
  unfold Reads at h
  unfold loadBy
  split at h
  · rw [h]
    rfl
  · simp only [h]

/-- Which settings a file and an environment lead to, by whatever conversions; `load` is the case of the
conversions in use. They lead to settings if what counts for each setting can be converted, and then each
setting is what counts for it, converted; otherwise they fail for their configuration. So another file and
another environment lead to the same, if the variables for the settings are the same, and the entries for
those settings that no variable is for. -/
theorem loadBy_outcomes (coercion : Coercion) {file : Option String}
    {environment : List (String × String)} {entries : Toml.Entries}
    (h : Proper file environment entries) :
    (∀ s, loadBy coercion file environment = .ok s ↔
      ∀ key, ∃ value, Effective entries environment key value ∧
        key.outcome? coercion value = some (s.get key)) ∧
    ((∃ s, loadBy coercion file environment = .ok s) ↔
      ∀ key value, Effective entries environment key value →
        (key.outcome? coercion value).isSome) ∧
    (∀ e, loadBy coercion file environment = .error e → ∃ text, e = .config text) ∧
    ∀ file' environment' entries', Proper file' environment' entries' →
      (∀ (key : Key) text, Sets environment' key.name text ↔ Sets environment key.name text) →
      (∀ key : Key, (∀ text, ¬ Sets environment key.name text) →
        ∀ given, (key.name, given) ∈ entries' ↔ (key.name, given) ∈ entries) →
      loadBy coercion file' environment' = loadBy coercion file environment := by
  have hload (s : Settings) : loadBy coercion file environment = .ok s ↔
      ∀ key, ∃ value, Effective entries environment key value ∧
        key.outcome? coercion value = some (s.get key) := by
    rw [loadBy_of_reads h.reads, ofLayers_eq_ok_iff]
    simp only [effective_eq_ok_iff, h.effective_iff, exists_eq_left']
  refine ⟨hload, ?_, ?_, ?_⟩
  · simp only [hload, h.effective_iff, exists_eq_left', forall_eq']
    exact ⟨fun ⟨s, hs⟩ key => Option.isSome_of_eq_some (hs key),
      fun hall => exists_get fun key => Option.isSome_iff_exists.mp (hall key)⟩
  · rw [loadBy_of_reads h.reads]
    exact failsWith_ofLayers
  · intro file' environment' entries' h' hvariables hentries
    rw [loadBy_of_reads h.reads, loadBy_of_reads h'.reads]
    refine ofLayers_congr fun key => h'.effective_iff.mp ?_
    exact (h.effective_iff.mpr rfl).congr (hvariables key) (hentries key)

/-- A file with a bad value for a setting that a variable is for, and another file without this value but
with a table of its own: the settings are the same. -/
theorem loadBy_outcomes_sample :
    let file := "listen = 80\nretry_attempts = -1\nlock_timeout_ms = true"
    let file' := "listen = 80\nlock_timeout_ms = true\n[cache]\nsize = 3"
    let environment := [("FieldKeeper_Retry_Attempts", "7"), ("HOME", "/")]
    let environment' := [("FIELDKEEPER_RETRY_ATTEMPTS", "7"), ("FIELDKEEPER_COLOUR", "red")]
    let s : Settings := { defaults with listen := "80", lockTimeoutMs := 1, retryAttempts := 7 }
    load (some file) environment = .ok s ∧ load (some file') environment' = .ok s := by
  intro file file' environment environment' s
  have h : Proper (some file) environment
      [("listen", .integer 80), ("retry_attempts", .integer (-1)),
        ("lock_timeout_ms", .boolean true)] :=
    .of_keys (by simp only [Reads, file]; rfl) (by decide) (by decide) (by decide)
  have h' : Proper (some file') environment'
      [("listen", .integer 80), ("lock_timeout_ms", .boolean true),
        ("cache", .table .header [("size", .integer 3)])] :=
    .of_keys (by simp only [Reads, file']; rfl) (by decide) (by decide) (by decide)
  obtain ⟨hload, -, -, hsame⟩ := loadBy_outcomes .standard h
  have hs : load (some file) environment = .ok s := by
    refine (hload s).mpr fun key => ⟨_, h.effective_iff.mpr rfl, ?_⟩
    cases key <;> rfl
  refine ⟨hs, (hsame _ _ _ h' (fun key text => ?_) fun key hunset given => ?_).trans hs⟩
  · have hvariable : (environmentLayer environment').value? key.name =
        (environmentLayer environment).value? key.name := by
      cases key <;> decide
    rw [h'.sets_iff, h.sets_iff, hvariable]
  · cases key with
    | retryAttempts => exact absurd ⟨"FieldKeeper_Retry_Attempts", .head _, by decide⟩ (hunset "7")
    | _ => simp [Key.name]

/-! ## Ranges -/

/-- The range of a setting: numbers are below a bound, and texts are not restricted. -/
def Key.InRange : (key : Key) → key.Kind → Prop
  | database | listen | logLevel => fun _ => True
  | lockTimeoutMs | busyTimeoutMs | retryBackoffMs => fun n : Nat => n < wordBound
  | retryAttempts => fun n : Nat => n < UInt32.size

theorem Key.inRange_defaults (key : Key) : key.InRange (defaults.get key) := by
  cases key
  case database | listen | logLevel => trivial
  all_goals exact Nat.le_of_ble_eq_true rfl

theorem lt_of_number? {bound n : Nat} (h : value.number? bound = some n) : n < bound :=
  of_decide_eq_true (Option.filter_eq_some_iff.mp h).2

theorem Key.inRange_of_outcome? {key : Key} {given : Option Value} {a : key.Kind}
    (h : key.outcome? .standard given = some a) : key.InRange a := by
  cases given with
  | none => exact Option.some.inj h ▸ key.inRange_defaults
  | some value =>
    cases key
    case database | listen | logLevel => trivial
    all_goals exact lt_of_number? h

/-- Whatever a file and an environment contain, the settings that they lead to are within their ranges. -/
theorem inRange_of_load {file : Option String} {environment : List (String × String)}
    (h : load file environment = .ok s) (key : Key) : key.InRange (s.get key) := by
  have hlayers {file environment : Layer} (h : ofLayers .standard file environment = .ok s) :
      key.InRange (s.get key) :=
    Key.inRange_of_outcome? (effective_eq_ok_iff.mp (ofLayers_eq_ok_iff.mp h key))
  unfold load loadBy at h
  split at h
  · exact hlayers h
  · split at h
    · exact hlayers h
    · cases h

end FieldCatalog.Settings
