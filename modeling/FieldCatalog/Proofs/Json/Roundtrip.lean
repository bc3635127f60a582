import FieldCatalog.Proofs.Json.Canonical
import FieldCatalog.Proofs.Json.Token

/-!
# Values that are read back

The text of a value without doubles is read as the same value, as long as it is nested no deeper than
the reader goes. The items of a container are read one after another by one step of the reader, and
what a step has to do is the same for items and for members: it reads what is written for one of them
and stops before the comma or the bracket that follows.

## Main definitions

* `Json.separated`: texts with commas between them
* `Json.Reads`: a step that reads each of some items in turn
* `Json.Spells`: a text that holds a value and nothing after it
* `Json.Readable`: the values that are read back

## Main results

* `Json.sequence_separated`: a container is read when a step reads each of its items
* `Json.value_chars`: a value is read off the front of a text
* `Json.parse_eq_ok_iff`: the texts that can be read are those that spell a value
* `Json.spells_render`, `Json.parse_render`: a whole text is read back
-/

namespace FieldCatalog.Json

/-! ## Containers -/

section Containers

variable {σ α : Type} {close c : Char} {step : σ → Reader σ} {write : α → List Char}
  {s s' s'' : σ} {x : α} {xs : List α} {cs rest : List Char}

/-- A text that can begin an item: there is a first character, and it is neither a blank nor a
closing bracket. -/
def Opens (cs : List Char) : Prop :=
  ∃ c rest, cs = c :: rest ∧ isSpace c = false ∧ c ≠ ']' ∧ c ≠ '\x7d'

/-- The texts of some items with commas between them. -/
def separated (write : α → List Char) : List α → List Char
  | [] => []
  | x :: xs => write x ++ xs.flatMap fun x => ',' :: write x

/-- A step takes one state to another while it reads the given items in turn, whatever follows. -/
inductive Reads (step : σ → Reader σ) (write : α → List Char) : σ → List α → σ → Prop
  | nil (s : σ) : Reads step write s [] s
  | cons {s s' s'' : σ} {x : α} {xs : List α}
      (front : ∀ rest, Follows rest → step s (write x ++ rest) = .ok (s', rest))
      (others : Reads step write s' xs s'') : Reads step write s (x :: xs) s''

theorem isSpace_close (hclose : close = ']' ∨ close = '\x7d') : isSpace close = false := by
  rcases hclose with rfl | rfl <;> rfl

/-- Behind an item there is a comma or the bracket. -/
theorem follows_flatMap (write : α → List Char) (hclose : close = ']' ∨ close = '\x7d')
    (xs : List α) (rest : List Char) :
    Follows (xs.flatMap (fun x => ',' :: write x) ++ close :: rest) := by
  cases xs with
  | nil => exact follows_cons (.inr hclose)
  | cons x xs => exact follows_cons (.inl rfl)

theorem length_le_flatMap (write : α → List Char) (xs : List α) :
    xs.length ≤ (xs.flatMap fun x => ',' :: write x).length := by
  induction xs with
  | nil => exact Nat.le_refl 0
  | cons x xs ih =>
    rw [List.flatMap_cons, List.length_append, List.length_cons, List.length_cons]
    omega

theorem sequenceRest_of_reads (hclose : close = ']' ∨ close = '\x7d') (rest : List Char)
    (h : Reads step write s xs s') {budget : Nat} (hbudget : xs.length < budget) :
    sequenceRest close step budget s (xs.flatMap (fun x => ',' :: write x) ++ close :: rest) =
      .ok (s', rest) := by
  -- Induction on the items that are read, for all budgets: each of them costs one.
  induction h generalizing budget with
  | nil s =>
    obtain ⟨budget, rfl⟩ := Nat.exists_eq_add_one_of_ne_zero (Nat.ne_of_gt hbudget)
    rw [List.flatMap_nil, List.nil_append, sequenceRest, skipSpace_cons (isSpace_close hclose)]
    exact if_pos rfl
  | @cons s s' s'' x xs front _ ih =>
    obtain ⟨budget, rfl⟩ :=
      Nat.exists_eq_add_one_of_ne_zero (Nat.ne_of_gt (Nat.lt_of_le_of_lt (Nat.zero_le _) hbudget))
    have hcomma : ',' ≠ close := by rcases hclose with rfl | rfl <;> decide
    have hrest := ih (Nat.lt_of_succ_lt_succ hbudget)
    rw [List.flatMap_cons, List.cons_append, List.cons_append, List.append_assoc, sequenceRest,
      skipSpace_cons (by rfl)]
    simp only [if_neg hcomma, if_true, front _ (follows_flatMap write hclose xs rest), bind,
      Except.bind, hrest]

/-- A container is read when a step reads each of its items. -/
theorem sequence_separated (hclose : close = ']' ∨ close = '\x7d') (rest : List Char)
    (h : Reads step write s xs s') (hopens : ∀ x ∈ xs, Opens (write x)) :
    sequence close step s (separated write xs ++ close :: rest) = .ok (s', rest) := by
  cases h with
  | nil =>
    rw [separated, List.nil_append, sequence, skipSpace_cons (isSpace_close hclose)]
    exact if_pos rfl
  | @cons s s' s'' x xs front others =>
    obtain ⟨c, cs, hwrite, hspace, hbracket, hbrace⟩ := hopens x List.mem_cons_self
    have hne : c ≠ close := by rcases hclose with rfl | rfl <;> assumption
    have hfront := front _ (follows_flatMap write hclose xs rest)
    -- The budget is the length of what is left, in which there is a comma for each further item.
    have hbudget : xs.length < (xs.flatMap (fun x => ',' :: write x) ++ close :: rest).length + 1 := by
      have := length_le_flatMap write xs
      rw [List.length_append, List.length_cons]
      omega
    have hrest := sequenceRest_of_reads hclose rest others hbudget
    rw [hwrite, List.cons_append] at hfront
    rw [separated, List.append_assoc, hwrite, List.cons_append, sequence, skipSpace_cons hspace]
    simp only [if_neg hne, hfront, bind, Except.bind, hrest]

end Containers

/-! ## Beginnings -/

theorem opens_cons {c : Char} {rest : List Char} (hspace : isSpace c = false) (hbracket : c ≠ ']')
    (hbrace : c ≠ '\x7d') : Opens (c :: rest) :=
  ⟨c, rest, rfl, hspace, hbracket, hbrace⟩

theorem isSpace_of_isDigit {c : Char} (h : c.isDigit = true) : isSpace c = false := by
  have hne : ∀ {other : Char}, other.isDigit = false → (c == other) = false := fun hother =>
    beq_eq_false_iff_ne.mpr (ne_of_isDigit h hother)
  rw [isSpace, hne (by decide), hne (by decide), hne (by decide), hne (by decide)]
  rfl

/-- An integer begins with a digit or a minus sign. -/
theorem front_integerChars (i : Int) :
    ∃ c rest, integerChars i = c :: rest ∧ (c = '-' ∨ c.isDigit = true) := by
  unfold integerChars
  split
  · exact ⟨'-', _, rfl, .inl rfl⟩
  · obtain ⟨c, cs, hdigits, hc⟩ := exists_toDigits_eq_cons i.natAbs
    exact ⟨c, cs, hdigits, .inr hc⟩

/-- The text of a plain value can begin an item. -/
theorem opens_chars {json : Json} (h : json.Plain) : Opens json.chars := by
  cases json with
  | null => exact opens_cons rfl (by decide) (by decide)
  | bool b => cases b <;> exact opens_cons rfl (by decide) (by decide)
  | integer i =>
    obtain ⟨c, rest, hchars, rfl | hdigit⟩ := front_integerChars i
    · exact ⟨'-', rest, hchars, rfl, by decide, by decide⟩
    · exact ⟨c, rest, hchars, isSpace_of_isDigit hdigit, ne_of_isDigit hdigit (by decide),
        ne_of_isDigit hdigit (by decide)⟩
  | double x => exact absurd h (by simp [Plain])
  | string s => exact opens_cons rfl (by decide) (by decide)
  | array items => exact opens_cons rfl (by decide) (by decide)
  | object members => exact opens_cons rfl (by decide) (by decide)

theorem plain_of_mem {items : List Json} {item : Json} (h : PlainItems items) (hmem : item ∈ items) :
    item.Plain := by
  induction items with
  | nil => cases hmem
  | cons other rest ih =>
    rw [PlainItems] at h
    rcases List.mem_cons.mp hmem with rfl | hmem
    · exact h.1
    · exact ih h.2 hmem

/-- The characters of a member. -/
def memberText (member : String × Json) : List Char :=
  quoted member.1.toList ++ ':' :: member.2.chars

theorem opens_memberText (member : String × Json) : Opens (memberText member) :=
  opens_cons rfl (by decide) (by decide)

theorem itemChars_eq (items : List Json) : itemChars items = separated chars items := by
  induction items with
  | nil => rfl
  | cons item rest ih =>
    cases rest with
    | nil => rw [itemChars, separated, List.flatMap_nil, List.append_nil]
    | cons next rest => rw [itemChars, ih, separated, separated, List.flatMap_cons, List.cons_append]

theorem memberChars_eq (members : Members) : memberChars members = separated memberText members := by
  induction members with
  | nil => rfl
  | cons member rest ih =>
    cases rest with
    | nil => rw [memberChars, separated, List.flatMap_nil, List.append_nil, memberText]
    | cons next rest =>
      rw [memberChars, ih, separated, separated, List.flatMap_cons, List.cons_append]
      rfl

/-! ## Values -/

variable {n : Nat} {rest : List Char}

theorem value_array (n : Nat) (rest : List Char) :
    value (n + 1) ('[' :: rest) = (sequence ']' (arrayStep (value n)) [] rest).map fun read =>
      (.array read.1.reverse, read.2) := by
  show (sequence ']' (arrayStep (value n)) [] rest >>= _) = _
  cases sequence ']' (arrayStep (value n)) [] rest <;> rfl

theorem value_object (n : Nat) (rest : List Char) :
    value (n + 1) ('\x7b' :: rest) = (sequence '\x7d' (objectStep (value n)) [] rest).map fun read =>
      (.object read.1.reverse, read.2) := by
  show (sequence '\x7d' (objectStep (value n)) [] rest >>= _) = _
  cases sequence '\x7d' (objectStep (value n)) [] rest <;> rfl

/-- What does not begin with an opening bracket is a scalar. -/
theorem value_of_front {c : Char} {cs : List Char} (hspace : isSpace c = false) (hbracket : c ≠ '[')
    (hbrace : c ≠ '\x7b') : value n (c :: cs) = scalar (c :: cs) := by
  unfold value
  simp only [skipSpace_cons hspace]
  split
  · next heq => exact absurd (List.cons.inj heq).1 hbracket
  · next heq => exact absurd (List.cons.inj heq).1 hbrace
  · rfl

theorem scalar_quoted (s : String) (rest : List Char) :
    scalar (quoted s.toList ++ rest) = .ok (.string s, rest) := by
  rw [quoted, List.cons_append, List.append_assoc, List.singleton_append, scalar, stringBody_escape]
  rfl

theorem memberName_quoted (name : String) (rest : List Char) :
    memberName (quoted name.toList ++ rest) = .ok (name, rest) := by
  rw [quoted, List.cons_append, List.append_assoc, List.singleton_append, memberName,
    skipSpace_cons (by rfl)]
  exact stringBody_escape name rest

theorem colon_cons (rest : List Char) : colon (':' :: rest) = .ok rest := by
  rw [colon, skipSpace_cons (by rfl)]
  rfl

theorem value_integer {i : Int} (hi : InRange i) (h : Follows rest) :
    value n (integerChars i ++ rest) = .ok (.integer i, rest) := by
  rw [← scalar_integerChars hi h]
  obtain ⟨c, cs, hchars, rfl | hdigit⟩ := front_integerChars i
  · rw [hchars]
    exact value_of_front rfl (by decide) (by decide)
  · rw [hchars]
    exact value_of_front (isSpace_of_isDigit hdigit) (ne_of_isDigit hdigit (by decide))
      (ne_of_isDigit hdigit (by decide))

mutual

/-- The text of a plain value is read as that value, whatever follows. -/
theorem value_chars : (json : Json) → (n : Nat) → json.Canonical → json.Plain → json.depth ≤ n →
    ∀ rest, Follows rest → value n (json.chars ++ rest) = .ok (json, rest)
  | .null, _, _, _, _, rest, _ => value_of_front rfl (by decide) (by decide)
  | .bool true, _, _, _, _, rest, _ => value_of_front rfl (by decide) (by decide)
  | .bool false, _, _, _, _, rest, _ => value_of_front rfl (by decide) (by decide)
  | .integer i, n, hc, _, _, rest, hrest => by
    rw [Canonical] at hc
    exact value_integer hc hrest
  | .double x, _, _, hp, _, _, _ => by
    rw [Plain] at hp
    exact hp.elim
  | .string s, n, _, _, _, rest, _ => by
    rw [chars, ← scalar_quoted s rest]
    exact value_of_front rfl (by decide) (by decide)
  | .array items, 0, _, _, hd, _, _ => by
    rw [depth] at hd
    exact absurd hd (Nat.not_succ_le_zero _)
  | .array items, n + 1, hc, hp, hd, rest, _ => by
    rw [Canonical] at hc
    rw [Plain] at hp
    rw [depth] at hd
    have hreads := reads_items items n hc hp (Nat.le_of_succ_le_succ hd) []
    have hsequence := sequence_separated (.inl rfl) rest hreads fun item hmem =>
      opens_chars (plain_of_mem hp hmem)
    rw [chars, itemChars_eq, List.cons_append, List.append_assoc, List.singleton_append,
      value_array, hsequence]
    simp only [Except.map, List.append_nil, List.reverse_reverse]
  | .object members, 0, _, _, hd, _, _ => by
    rw [depth] at hd
    exact absurd hd (Nat.not_succ_le_zero _)
  | .object members, n + 1, hc, hp, hd, rest, _ => by
    rw [Canonical] at hc
    rw [Plain] at hp
    rw [depth] at hd
    have hreads := reads_members members n hc.2 hp (Nat.le_of_succ_le_succ hd) []
    have hsequence := sequence_separated (.inr rfl) rest hreads fun member _ =>
      opens_memberText member
    rw [chars, memberChars_eq, List.cons_append, List.append_assoc, List.singleton_append,
      value_object, hsequence]
    simp only [Except.map, List.append_nil, List.reverse_reverse]

/-- A step for arrays reads the items, the latest first. -/
theorem reads_items : (items : List Json) → (n : Nat) → CanonicalItems items → PlainItems items →
    depthOfItems items ≤ n → ∀ read, Reads (arrayStep (value n)) chars read items
      (items.reverse ++ read)
  | [], _, _, _, _, read => .nil read
  | item :: items, n, hc, hp, hd, read => by
    rw [CanonicalItems] at hc
    rw [PlainItems] at hp
    rw [depthOfItems, Nat.max_le] at hd
    rw [List.reverse_cons, List.append_assoc, List.singleton_append]
    have hothers := reads_items items n hc.2 hp.2 hd.2 (item :: read)
    refine .cons (fun rest hrest => ?_) hothers
    simp only [arrayStep, value_chars item n hc.1 hp.1 hd.1 rest hrest, bind, Except.bind]

/-- A step for objects reads the members, the latest first. -/
theorem reads_members : (members : Members) → (n : Nat) → CanonicalMembers members →
    PlainMembers members → depthOfMembers members ≤ n →
      ∀ read, Reads (objectStep (value n)) memberText read members (members.reverse ++ read)
  | [], _, _, _, _, read => .nil read
  | (name, json) :: members, n, hc, hp, hd, read => by
    rw [CanonicalMembers] at hc
    rw [PlainMembers] at hp
    rw [depthOfMembers, Nat.max_le] at hd
    rw [List.reverse_cons, List.append_assoc, List.singleton_append]
    have hothers := reads_members members n hc.2 hp.2 hd.2 ((name, json) :: read)
    refine .cons (fun rest hrest => ?_) hothers
    simp only [objectStep, memberText, List.append_assoc, List.cons_append, memberName_quoted,
      colon_cons, value_chars json n hc.1 hp.1 hd.1 rest hrest, bind, Except.bind]

end

/-! ## Texts -/

/-- A text that holds a value within the nesting limit and nothing after it. -/
def Spells (text : String) (json : Json) : Prop :=
  ∃ rest, value nestingLimit text.toList = .ok (json, rest) ∧ endOfText rest = .ok ()

/-- The texts that can be read are those that spell a value; its members are then put in order. -/
theorem parse_eq_ok_iff {text : String} {json : Json} :
    parse text = .ok json ↔ ∃ raw, Spells text raw ∧ raw.settle = json := by
  constructor
  · intro h
    obtain ⟨⟨raw, rest⟩, hvalue, h⟩ := bind_eq_ok_iff.mp h
    obtain ⟨_, hend, h⟩ := bind_eq_ok_iff.mp h
    exact ⟨raw, ⟨rest, hvalue, hend⟩, Except.ok.inj h⟩
  · rintro ⟨raw, ⟨rest, hvalue, hend⟩, rfl⟩
    simp only [parse, parseWithin, hvalue, hend, bind, Except.bind]

/-- The values that are read back: their members are in order, no number is a double, and they are
nested no deeper than the reader goes. -/
structure Readable (json : Json) : Prop where
  canonical : json.Canonical
  plain : json.Plain
  depth : json.depth ≤ nestingLimit

/-- What is written for a value that can be read back spells it. -/
theorem spells_render {json : Json} (h : json.Readable) : Spells json.render json := by
  have hvalue := value_chars json nestingLimit h.canonical h.plain h.depth [] follows_nil
  rw [List.append_nil] at hvalue
  exact ⟨[], by rw [render, String.toList_ofList, hvalue], rfl⟩

/-- A text that has been written is read as the value it was written for. -/
theorem parse_render {json : Json} (h : json.Readable) : parse json.render = .ok json :=
  parse_eq_ok_iff.mpr ⟨json, spells_render h, settle_of_canonical json h.canonical⟩

end FieldCatalog.Json
