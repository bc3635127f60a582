import FieldCatalog.Proofs.Action.Answering
import FieldCatalog.Session

/-!
# What lasts through a session

Whatever happens to a session, its contents undergo changes or are lost: an operation or an action
makes at most one change, a lock held elsewhere and a failing field type prevent changes, and opening
the store again either finds the same contents or none. So a property of contents lasts through every
session as soon as no contents have it and changes keep it.

## Main definitions

* `Contents.Lasting`: a property of empty contents that changes keep

## Main results

* `Contents.lasting_referential`, `Contents.lasting_positive`: two lasting properties
* `Session.step_keeps`, `Session.run_keeps`: one event, and any events
* `Session.referential_start`, `Session.positive_start`: what the first rows of a session satisfy
-/

namespace FieldCatalog

namespace Contents

/-- A property of empty contents that changes keep as long as every field lies in an existing
category. -/
structure Lasting (P : Contents → Prop) : Prop where
  empty : P .empty
  change : ∀ {now : Int} {area : Area} {c c' : Contents}, c.Referential → P c →
    Change now area c c' → P c'

theorem lasting_referential : Lasting Referential where
  empty _ hfield := by cases hfield
  change hc _ hchange := hchange.referential hc

theorem lasting_positive : Lasting Positive where
  empty := by constructor <;> intro row hrow <;> cases hrow
  change _ hp hchange := hchange.positive hp

/-- A property may rely on another one that lasts. -/
theorem Lasting.and {P Q : Contents → Prop} (hP : Lasting P) (hempty : Q .empty)
    (hchange : ∀ {now : Int} {area : Area} {c c' : Contents}, c.Referential → P c → Q c →
      Change now area c c' → Q c') : Lasting fun c => P c ∧ Q c where
  empty := ⟨hP.empty, hempty⟩
  change hc h h' := ⟨hP.change hc h.1 h', hchange hc h.1 h.2 h'⟩

end Contents

/-! ## Seeds -/

namespace Statement

/-- Statements run one after another keep what each of them keeps, whether they fail or not. -/
theorem forM_keeps {α : Type} {P : Contents → Prop} {f : α → Statement Unit} {rows : List α}
    {c : Contents} (hf : ∀ row ∈ rows, ∀ c, P c → P ((f row).on c).2) (hc : P c) :
    P ((rows.forM f).on c).2 := by
  -- Induction on the rows, for all contents. A statement that fails is the last one to run.
  induction rows generalizing c with
  | nil => exact hc
  | cons row rest ih =>
    have hrow := hf row List.mem_cons_self c hc
    have hcons : (row :: rest).forM f = f row >>= fun _ => rest.forM f := rfl
    rw [hcons, on_bind]
    generalize (f row).on c = run at hrow ⊢
    obtain ⟨_ | _, c'⟩ := run
    · exact hrow
    · exact ih (fun row hmem => hf row (.tail _ hmem)) hrow

/-- The rows of a seed keep a property that each row keeps where it is stored. -/
theorem seed_keeps {P : Contents → Prop} {categories : List Category} {fields : List Field}
    (hempty : P .empty)
    (hcategory : ∀ row ∈ categories, ∀ c, P c → P (c.withCategory (c.storedCategory row)))
    (hfield : ∀ row ∈ fields, ∀ c : Contents,
      c.hasCategory (c.storedField row).categoryid = true → P c →
        P (c.withField (c.storedField row))) :
    P ((seed categories fields).on .empty).2 := by
  -- First the categories are stored, into contents without rows, and then the fields.
  have hcategories : P ((categories.forM fun row => seed.discardId (putCategory row)).on .empty).2 :=
    forM_keeps (fun row hmem c hc => hcategory row hmem c hc) hempty
  have hfields : ∀ c, P c → P ((fields.forM fun row => seed.discardId (putField row)).on c).2 := by
    refine fun c hc => forM_keeps (fun row hmem c hc => ?_) hc
    -- A field without a category is refused, and the contents are as before.
    have hdiscard : seed.discardId (putField row) = putField row >>= fun _ => pure () := rfl
    rw [hdiscard, on_bind, on_putField]
    by_cases hhas : c.hasCategory (c.storedField row).categoryid = true
    · rw [if_pos hhas]
      exact hfield row hmem c hhas hc
    · rw [if_neg hhas]
      exact hc
  unfold seed
  rw [on_bind]
  generalize (categories.forM fun row => seed.discardId (putCategory row)).on .empty = run
    at hcategories ⊢
  obtain ⟨_ | _, c⟩ := run
  · exact hcategories
  · exact hfields c hcategories

end Statement

namespace Session

open Contents

variable {σ : Type} {storage : Storage} {attempts : Nat} {categories : List Category}
  {fields : List Field} {types : List (FieldType σ)} {memory : σ} {s : Session σ}

/-- A session begins with what its seed has written. -/
theorem contents_start {seed : Statement Unit}
    (h : start storage attempts seed types memory = .ok s) :
    s.holdings.contents = (seed.on .empty).2 := by
  unfold start at h
  generalize seed.on .empty = run at h ⊢
  obtain ⟨_ | _, c⟩ := run
  · cases h
  · cases hregister : Registry.builtin.registerAll types with
    | error e =>
      rw [hregister] at h
      cases h
    | ok registry =>
      rw [hregister] at h
      cases h
      rfl

/-- A seed puts fields into existing categories only. -/
theorem referential_start
    (h : start storage attempts (.seed categories fields) types memory = .ok s) :
    s.holdings.contents.Referential := by
  rw [contents_start h]
  refine Statement.seed_keeps lasting_referential.empty (fun row _ c hc => ?_)
    fun row _ c hhas hc => ?_
  · exact referential_withCategory hc _
  · obtain ⟨home, hhome⟩ := Option.isSome_iff_exists.mp hhas
    exact referential_withField hc hhome

/-- A seed of positive numbers leaves positive numbers. -/
theorem positive_start
    (h : start storage attempts (.seed categories fields) types memory = .ok s)
    (hcategories : ∀ row ∈ categories, 1 ≤ row.id) (hfields : ∀ row ∈ fields, 1 ≤ row.id) :
    s.holdings.contents.Positive := by
  have hne : ∀ {id : Id}, 1 ≤ id → id ≠ 0 := fun hid =>
    Int.ne_of_gt (Int.lt_of_lt_of_le Int.zero_lt_one hid)
  rw [contents_start h]
  -- A positive number is never replaced, since only the number zero asks for a new one.
  refine Statement.seed_keeps lasting_positive.empty (fun row hrow c hc => hc.withCategory ?_)
    fun row hrow c _ hc => hc.withField ?_
  · unfold storedCategory
    rw [if_neg (hne (hcategories row hrow))]
    split
    · exact hcategories row hrow
    · exact hcategories row hrow
  · unfold storedField
    rw [if_neg (hne (hfields row hrow))]
    split
    · exact hfields row hrow
    · exact hfields row hrow

/-! ## Events -/

/-- A call keeps what changes keep. -/
theorem keeps_of_ensures {α : Type} {P : Contents → Prop} {call : Call σ α} {k : Circumstances σ}
    {h : Holdings σ} {post : α → Contents → Prop} (hcall : call.Ensures k h post)
    (hp : P h.contents) (hpost : ∀ a c', post a c' → P c') : P (call.run k h).2.contents := by
  cases hrun : call.run k h with
  | mk result h' =>
    cases result with
    | ok a => exact hpost a _ (hcall.ok a h' hrun)
    | error e => exact (hcall.unchanged e h' hrun).symm ▸ hp

/-- One event keeps what changes keep. -/
theorem step_keeps {P : Contents → Prop} (hP : Lasting P) (now : Int) (event : Event σ)
    (hc : s.holdings.contents.Referential) (hp : P s.holdings.contents) :
    P (s.step now event).2.holdings.contents := by
  -- Operations and actions make a change or none; nothing else but opening the store again touches
  -- the contents.
  have changed : ∀ {area : Area} {c' : Contents}, c' = s.holdings.contents ∨
      Change now area s.holdings.contents c' → P c' := by
    rintro area c' (rfl | hchange)
    · exact hp
    · exact hP.change hc hp hchange
  cases event with
  | perform m =>
    refine keeps_of_ensures (m.ensures (k := s.circumstances now) hc) hp fun _ c' hpost => ?_
    rcases hpost with hsame | ⟨area, -, hchange⟩
    · exact hsame ▸ hp
    · exact changed (.inr hchange)
  | act a =>
    have hkeeps := keeps_of_ensures (a.ensures_execute (k := s.circumstances now) hc) hp
      fun _ c' hpost => changed hpost.2.2
    rw [← a.holdings_run] at hkeeps
    exact hkeeps
  | holdLock => exact hp
  | releaseLock => exact hp
  | reopen =>
    -- A store in memory starts again without rows.
    cases hstorage : s.storage with
    | memory =>
      simp only [step, hstorage]
      exact hP.empty
    | file =>
      simp only [step, hstorage]
      exact hp
  | retune change => exact hp

/-- Any events keep what changes keep. -/
theorem run_keeps {P : Contents → Prop} (hP : Lasting P) (events : List (Int × Event σ))
    (hc : s.holdings.contents.Referential) (hp : P s.holdings.contents) :
    P (s.run events).holdings.contents := by
  -- Induction on the events, for all sessions; that fields lie in existing categories is carried
  -- along, since the next step needs it.
  induction events generalizing s with
  | nil => exact hp
  | cons event events ih =>
    exact ih (step_keeps lasting_referential event.1 event.2 hc hc)
      (step_keeps hP event.1 event.2 hc hp)

end Session

end FieldCatalog
