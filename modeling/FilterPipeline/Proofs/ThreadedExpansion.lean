import FilterPipeline.Proofs.MarkedFormulas
import FilterPipeline.Proofs.SharedStore

/-!
# Expansion with one stack and one store

A formula can be expanded with a single stack of the variables being expanded: a variable is put on
it before the leaves of its formula are taken from left to right, and taken off behind the last one.
Formulas are read through one store, which is handed on from each reading to the next. Main
statement: whatever exact store it begins with, such a run leaves the stack as it was and the store
exact, and gives what expansion gives.
-/

namespace FilterPipeline

/-- A formula read through an exact store is that of its text, and leaves the store exact. -/
theorem FormulaCache.IsExact.parse {cache : FormulaCache} (h : cache.IsExact) (text : String)
    (limit : Nat) : (cache.parse text limit).1 = Formula.parseWithin limit text ∧
      (cache.parse text limit).2.IsExact := by
  unfold FormulaCache.parse
  cases hget : cache.get? text limit with
  | some t => exact ⟨h.entries hget, h⟩
  | none =>
    dsimp only
    exact ⟨Eq.refl _, h.insert text limit⟩

/-- Through an exact store formulas are read as without a store. -/
theorem Settings.readFormula_of_isExact (s : Settings) {kept : FormulaCache} (h : kept.IsExact) :
    s.readFormula kept = Formula.parseWithin s.maxParseDepth := by
  funext text
  unfold readFormula
  split
  · exact (h.parse text s.maxParseDepth).1
  · rfl

/-- What a run changes: the stack of the variables being expanded, the last one in front, and the
store of formulas. -/
structure ExpansionState where
  active : List String
  kept : FormulaCache

/-- Replaces the field leaves for which there is a replacement, taken from left to right. -/
def Formula.substituteInOrder (replacement : String → StateM ExpansionState (Option Formula)) :
    Formula → StateM ExpansionState Formula
  | number x => return number x
  | field path => do return (← replacement path).getD (field path)
  | binary op left right => do
    let left ← left.substituteInOrder replacement
    let right ← right.substituteInOrder replacement
    return binary op left right
  | call f arg => do return call f (← arg.substituteInOrder replacement)
  | negate arg => do return negate (← arg.substituteInOrder replacement)

/-- Reads the formula of a text as the settings say, through the store. -/
def Settings.readThrough (s : Settings) (text : String) : StateM ExpansionState Formula := do
  if s.useParseCache then
    let (t, kept) := (← get).kept.parse text s.maxParseDepth
    modify ({ · with kept })
    return t
  else
    return Formula.parseWithin s.maxParseDepth text

namespace Resolver

/-- Does something with a name on the stack, and takes the name off behind it. -/
def withActive {α : Type} (name : String) (x : StateM ExpansionState α) :
    StateM ExpansionState α := do
  modify fun σ ↦ { σ with active := name :: σ.active }
  let a ← x
  modify fun σ ↦ { σ with active := σ.active.tail }
  return a

/-- What a leaf is replaced by; a name on the stack stays a field. -/
def replaceThrough (r : Resolver) (expand : String → StateM ExpansionState (Option Formula))
    (leaf : String) : StateM ExpansionState (Option Formula) := do
  if (← get).active.contains leaf then return none
  match r.classify leaf with
  | .arithmetic _ => expand leaf
  | _ => return none

/-- The expansion of a variable with one stack and one store. -/
def expandThrough (r : Resolver) (s : Settings) :
    (fuel : Nat) → (name : String) → StateM ExpansionState (Option Formula)
  | 0, _ => return none
  | fuel + 1, name =>
    match (r.catalog.arithmetic? name).bind ArithmeticVariable.formula? with
    | none => return none
    | some text => do
      let t ← s.readThrough text
      let replacement := r.replaceThrough (expandThrough r s fuel)
      return some (← withActive name (t.substituteInOrder replacement))

end Resolver

/-- With some names on the stack and any exact store, something comes out, and leaves the stack as
it was and the store exact. -/
def Gives {α : Type} (active : List String) (x : StateM ExpansionState α) (a : α) : Prop :=
  ∀ kept : FormulaCache, kept.IsExact → ∃ kept' : FormulaCache, kept'.IsExact ∧
    (x.run ⟨active, kept⟩).run = (a, ⟨active, kept'⟩)

namespace Gives

variable {α β : Type} {active : List String} {r : Resolver} {s : Settings}

/-- A step that does nothing gives its value. -/
protected theorem pure (a : α) : Gives active (pure a) a := fun kept h ↦ ⟨kept, h, rfl⟩

/-- What comes first does not disturb what comes next. -/
protected theorem bind {x : StateM ExpansionState α} {f : α → StateM ExpansionState β} {a : α}
    {b : β} (hx : Gives active x a) (hf : Gives active (f a) b) : Gives active (x >>= f) b := by
  intro kept h
  obtain ⟨between, hbetween, hx⟩ := hx kept h
  obtain ⟨kept', hkept', hf⟩ := hf between hbetween
  exact ⟨kept', hkept', by rw [StateT.run_bind, Id.run_bind, hx, hf]⟩

private theorem readThrough (text : String) :
    Gives active (s.readThrough text) (Formula.parseWithin s.maxParseDepth text) := by
  intro kept h
  obtain ⟨hvalue, hkept⟩ := h.parse text s.maxParseDepth
  cases hcache : s.useParseCache with
  | true => exact ⟨_, hkept, by simp [Settings.readThrough, hcache, hvalue]⟩
  | false => exact ⟨_, h, by simp [Settings.readThrough, hcache]⟩

private theorem withActive {name : String} {x : StateM ExpansionState α} {a : α}
    (hx : Gives (name :: active) x a) : Gives active (Resolver.withActive name x) a := by
  intro kept h
  obtain ⟨kept', hkept', hx⟩ := hx kept h
  exact ⟨kept', hkept', by simp [Resolver.withActive, hx]⟩

private theorem substituteInOrder {replacement : String → StateM ExpansionState (Option Formula)}
    {f : String → Option Formula} (h : ∀ leaf, Gives active (replacement leaf) (f leaf))
    (t : Formula) : Gives active (t.substituteInOrder replacement) (t.substitute f) := by
  induction t with
  | number x => exact .pure _
  | field path => exact (h path).bind (.pure _)
  | binary op left right ihl ihr => exact ihl.bind (ihr.bind (.pure _))
  | call g arg ih | negate arg ih => exact ih.bind (.pure _)

private theorem replaceThrough {run : String → StateM ExpansionState (Option Formula)}
    {expand : String → Option Formula} (h : ∀ name, Gives active (run name) (expand name))
    (leaf : String) :
    Gives active (r.replaceThrough run leaf) (r.replacement? active expand leaf) := by
  intro kept hkept
  unfold Resolver.replaceThrough Resolver.replacement?
  by_cases hold : leaf ∈ active
  · exact ⟨kept, hkept, by simp [hold]⟩
  cases hleaf : r.classify leaf with
  | base | list w op => exact ⟨kept, hkept, by simp [hold]⟩
  | arithmetic w =>
    obtain ⟨kept', hkept', hrun⟩ := h leaf kept hkept
    exact ⟨kept', hkept', by simp [hold, hrun]⟩

/-- A run gives what expansion gives inside of the expansions of the names on the stack. -/
theorem expandThrough (fuel : Nat) (name : String) : Gives active (r.expandThrough s fuel name)
    (r.expandWithin (Formula.parseWithin s.maxParseDepth) fuel active name) := by
  induction fuel generalizing active name with
  | zero => exact .pure _
  | succ fuel ih =>
    cases hv : r.catalog.arithmetic? name with
    | none =>
      simp only [Resolver.expandThrough, Resolver.expandWithin, hv]
      exact .pure _
    | some v =>
      cases htext : v.formula? with
      | none =>
        rw [Resolver.expandWithin_eq_none hv htext]
        simp only [Resolver.expandThrough, hv, Option.bind_some, htext]
        exact .pure _
      | some text =>
        rw [Resolver.expandWithin_succ hv htext]
        simp only [Resolver.expandThrough, hv, Option.bind_some, htext]
        exact (readThrough text).bind
          ((withActive (substituteInOrder (replaceThrough fun leaf ↦ ih leaf) _)).bind (.pure _))

end Gives
end FilterPipeline
