import FilterPipeline.Formula.Cache
import Mathlib.Logic.Function.Basic

/-!
# Readers that share a store of formulas

A formula is read in three moves: it is looked up in the store, it is read off its text if it is not
there, and it is put into the store. Between two moves of one reader others may move any number of
times, and the store may be emptied. Main statement: in whatever order the moves come, each reader
gets the formula of its text as if there were no store, and the store holds such formulas only and
never more than its capacity.
-/

namespace FilterPipeline

/-- How far a reader has come with a text and a limit. -/
inductive Reader where
  | idle
  /-- Nothing has been looked up yet. -/
  | asked (text : String) (limit : Nat)
  /-- The store did not have the formula. -/
  | missed (text : String) (limit : Nat)
  /-- The formula has been read and is still to be kept. -/
  | parsed (text : String) (limit : Nat) (t : Formula)
  /-- The reader has got the formula. -/
  | answered (text : String) (limit : Nat) (t : Formula)

/-- What a reader does at one stroke. -/
inductive ReaderMove where
  | ask (text : String) (limit : Nat)
  | look
  | parse
  | keep

/-- The store and the reader after a move of the reader. A move for which it is not the time changes
nothing. -/
def Reader.move (cache : FormulaCache) : Reader → ReaderMove → FormulaCache × Reader
  | idle, .ask text limit | answered .., .ask text limit => (cache, asked text limit)
  | asked text limit, .look =>
    (cache, (cache.get? text limit).elim (missed text limit) (answered text limit))
  | missed text limit, .parse => (cache, parsed text limit (Formula.parseWithin limit text))
  | parsed text limit t, .keep => (cache.insert text limit t, answered text limit t)
  | r, _ => (cache, r)

/-- A store and its readers. -/
structure SharedStore (ι : Type) where
  cache : FormulaCache
  readers : ι → Reader

/-- What happens to a shared store: one of the readers moves, or the store is emptied. -/
inductive StoreEvent (ι : Type) where
  | move (i : ι) (m : ReaderMove)
  | clear

/-- The reader that moves in an event. -/
def StoreEvent.reader? {ι : Type} : StoreEvent ι → Option ι
  | move i _ => some i
  | clear => none

namespace SharedStore

variable {ι : Type} [DecidableEq ι]

/-- The empty store before anybody has asked for anything. -/
def initial : SharedStore ι := ⟨.empty, fun _ ↦ .idle⟩

/-- The shared store after an event. -/
def step (s : SharedStore ι) : StoreEvent ι → SharedStore ι
  | .move i m =>
    let (cache, r) := (s.readers i).move s.cache m
    ⟨cache, Function.update s.readers i r⟩
  | .clear => { s with cache := .empty }

/-- The shared store after some events. -/
def run (s : SharedStore ι) (events : List (StoreEvent ι)) : SharedStore ι := events.foldl step s

end SharedStore

/-- What a reader has read, or been given, is the formula of its text. -/
def Reader.IsExact : Reader → Prop
  | parsed text limit t | answered text limit t => t = Formula.parseWithin limit text
  | _ => True

namespace FormulaCache

/-- A store of at most so many formulas as it may hold, each that of its text and limit. -/
structure IsExact (cache : FormulaCache) : Prop where
  entries : ∀ {text limit t}, cache.get? text limit = some t → t = Formula.parseWithin limit text
  size : cache.size ≤ capacity

/-- The empty store is exact. -/
theorem isExact_empty : empty.IsExact where
  entries h := by simp [get?, empty] at h
  size := by simp [size, empty]

/-- Keeping the formula of a text leaves a store exact, whether it is emptied for that or not. -/
theorem IsExact.insert {cache : FormulaCache} (h : cache.IsExact) (text : String) (limit : Nat) :
    (cache.insert text limit (Formula.parseWithin limit text)).IsExact := by
  unfold FormulaCache.insert
  extract_lets kept
  have hkept : kept.IsExact ∧ kept.size < capacity := by
    simp only [kept]
    split
    · exact ⟨isExact_empty, by decide⟩
    · next hroom => exact ⟨h, by omega⟩
  constructor
  · intro text' limit' t ht
    rw [get?, Std.HashMap.getElem?_insert] at ht
    split at ht
    · next heq =>
      obtain ⟨rfl, rfl⟩ := Prod.mk.inj (eq_of_beq heq)
      exact (Option.some.inj ht).symm
    · exact hkept.1.entries ht
  · have hsize := Std.HashMap.size_insert_le (m := kept.entries) (k := (text, limit))
      (v := Formula.parseWithin limit text)
    have hroom := hkept.2
    rw [FormulaCache.size] at hroom ⊢
    exact Nat.le_trans hsize hroom

end FormulaCache

private theorem Reader.IsExact.move {r : Reader} {cache : FormulaCache} (hr : r.IsExact)
    (hcache : cache.IsExact) (m : ReaderMove) :
    (r.move cache m).1.IsExact ∧ (r.move cache m).2.IsExact := by
  cases m with
  | ask text limit =>
    cases r with
    | idle | answered => exact ⟨hcache, trivial⟩
    | asked | missed | parsed => exact ⟨hcache, hr⟩
  | look =>
    cases r with
    | asked text limit =>
      refine ⟨hcache, ?_⟩
      simp only [Reader.move]
      cases hget : cache.get? text limit with
      | none => trivial
      | some t => exact hcache.entries hget
    | idle | missed | parsed | answered => exact ⟨hcache, hr⟩
  | parse =>
    cases r with
    | missed text limit => exact ⟨hcache, by simp only [Reader.move, Reader.IsExact]⟩
    | idle | asked | parsed | answered => exact ⟨hcache, hr⟩
  | keep =>
    cases r with
    | parsed text limit t =>
      rw [Reader.IsExact] at hr
      rw [hr]
      exact ⟨hcache.insert text limit, by simp only [Reader.move, Reader.IsExact]⟩
    | idle | asked | missed | answered => exact ⟨hcache, hr⟩

namespace SharedStore

variable {ι : Type} [DecidableEq ι]

/-- The store is exact, and so is every reader. -/
structure IsExact (s : SharedStore ι) : Prop where
  cache : s.cache.IsExact
  readers : ∀ i, (s.readers i).IsExact

omit [DecidableEq ι] in
/-- At the start all is exact. -/
theorem isExact_initial : (initial : SharedStore ι).IsExact :=
  ⟨FormulaCache.isExact_empty, fun _ ↦ trivial⟩

variable {s : SharedStore ι} {i : ι}

private theorem IsExact.step (h : s.IsExact) (e : StoreEvent ι) : (s.step e).IsExact := by
  cases e with
  | clear => exact ⟨FormulaCache.isExact_empty, h.readers⟩
  | move i m =>
    obtain ⟨hcache, hr⟩ := (h.readers i).move h.cache m
    refine ⟨hcache, fun j ↦ ?_⟩
    simp only [SharedStore.step, Function.update_apply]
    split
    · exact hr
    · exact h.readers j

/-- After any events all is exact. -/
theorem IsExact.run (h : s.IsExact) (events : List (StoreEvent ι)) : (s.run events).IsExact := by
  induction events generalizing s with
  | nil => exact h
  | cons e rest ih => exact ih (h.step e)

private theorem readers_run_of_others {events : List (StoreEvent ι)}
    (h : ∀ e ∈ events, e.reader? ≠ some i) : (s.run events).readers i = s.readers i := by
  induction events generalizing s with
  | nil => rfl
  | cons e rest ih =>
    rw [List.forall_mem_cons] at h
    have hstep : (s.step e).readers i = s.readers i := by
      cases e with
      | clear => rfl
      | move j m =>
        have hij : i ≠ j := fun hij ↦ h.1 (congrArg some hij.symm)
        simp only [SharedStore.step, Function.update_of_ne hij]
    exact (ih h.2).trans hstep

private theorem run_append (events more : List (StoreEvent ι)) :
    s.run (events ++ more) = (s.run events).run more := List.foldl_append

private theorem readers_run_move {events : List (StoreEvent ι)}
    (h : ∀ e ∈ events, e.reader? ≠ some i) (m : ReaderMove) :
    (s.run (events ++ [.move i m])).readers i =
      ((s.readers i).move (s.run events).cache m).2 := by
  rw [run_append, ← readers_run_of_others (s := s) h]
  simp only [run, List.foldl_cons, List.foldl_nil, step, Function.update_self]

/-- Three moves of its own bring a reader that has asked for a text to the formula of the text,
whatever others do before and between them. -/
theorem answered_of_moves (hs : s.IsExact) {text : String} {limit : Nat}
    (hi : s.readers i = .asked text limit) {first second third : List (StoreEvent ι)}
    (hothers : ∀ e ∈ first ++ second ++ third, e.reader? ≠ some i) :
    (s.run (first ++ [.move i .look] ++ (second ++ [.move i .parse]) ++
      (third ++ [.move i .keep]))).readers i =
        .answered text limit (Formula.parseWithin limit text) := by
  simp only [List.forall_mem_append] at hothers
  obtain ⟨⟨hfirst, hsecond⟩, hthird⟩ := hothers
  rw [run_append, readers_run_move hthird, run_append, readers_run_move hsecond,
    readers_run_move hfirst, hi]
  simp only [Reader.move]
  cases hget : (s.run first).cache.get? text limit with
  | none => rfl
  | some t =>
    -- a hit answers at once, and the two moves that are left change nothing
    rw [(hs.run first).cache.entries hget]
    rfl

/-- A reader whom nobody interrupts does what `FormulaCache.parse` does. -/
theorem run_uninterrupted {text : String} {limit : Nat} (hi : s.readers i = .asked text limit) :
    s.run [.move i .look, .move i .parse, .move i .keep] =
      ⟨(s.cache.parse text limit).2,
        Function.update s.readers i (.answered text limit (s.cache.parse text limit).1)⟩ := by
  simp only [run, List.foldl_cons, List.foldl_nil, step, hi, Reader.move, FormulaCache.parse]
  cases hget : s.cache.get? text limit with
  | none => simp
  | some t => simp

/-- Whatever readers and those who empty the store do, in any order: each reader that has been
answered has got the formula of its text, each formula in the store is that of its text and limit,
the store holds at most 4096 formulas, and three moves of its own answer each reader that has asked,
whatever others do meanwhile. -/
theorem shared_readings_exact (events : List (StoreEvent ι)) :
    (∀ i text limit t, (initial.run events).readers i = .answered text limit t →
      t = Formula.parseWithin limit text) ∧
    (∀ text limit t, (initial.run events).cache.get? text limit = some t →
      t = Formula.parseWithin limit text) ∧
    (initial.run events).cache.size ≤ 4096 ∧
    ∀ i text limit, (initial.run events).readers i = .asked text limit →
      ∀ first second third : List (StoreEvent ι),
        (∀ e ∈ first ++ second ++ third, e.reader? ≠ some i) →
        ((initial.run events).run (first ++ [.move i .look] ++ (second ++ [.move i .parse]) ++
          (third ++ [.move i .keep]))).readers i =
            .answered text limit (Formula.parseWithin limit text) := by
  have h : (initial.run events).IsExact := isExact_initial.run events
  refine ⟨fun i text limit t hi ↦ ?_, fun _ _ _ ht ↦ h.cache.entries ht, h.cache.size,
    fun _ _ _ hi _ _ _ hothers ↦ answered_of_moves h hi hothers⟩
  have hr := h.readers i
  rwa [hi] at hr

end SharedStore
end FilterPipeline
