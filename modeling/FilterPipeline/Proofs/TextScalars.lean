import FilterPipeline.Proofs.NumberTexts

/-!
# The scalars of a text

What holds of all tokens of a text holds of all scalars of the value that is read from it. Every
integer that is read fits into 64 bits.
-/

namespace FilterPipeline

variable {P : Json → Prop}

/-- A structure that spells a value with a property of all scalars, if it spells a value. -/
def Source.AllScalars (P : Json → Prop) (v : Source) : Prop :=
  ∀ j, v.toJson? = some j → ∀ s ∈ j.scalars, P s

private theorem Source.allScalars_unreadable : AllScalars P .unreadable := fun _ h ↦ nomatch h

private theorem Source.allScalars_arr {items : List Source} (h : ∀ v ∈ items, v.AllScalars P) :
    (Source.arr items).AllScalars P := by
  intro j hj s hs
  obtain ⟨js, hitems, rfl⟩ := Option.map_eq_some_iff.mp hj
  obtain ⟨w, hw, hsw⟩ := Json.mem_scalars_arr.mp hs
  clear hj hs
  induction items generalizing js with
  | nil =>
    cases hitems
    cases hw
  | cons v rest ih =>
    obtain ⟨hv, hrest⟩ := List.forall_mem_cons.mp h
    simp only [Source.itemsToJson?, Option.bind_eq_bind, Option.bind_eq_some_iff] at hitems
    obtain ⟨first, hfirst, others, hothers, heq⟩ := hitems
    cases heq
    rcases List.mem_cons.mp hw with rfl | hw
    · exact hv w hfirst s hsw
    · exact ih hrest others hothers hw

private theorem Source.allScalars_obj {members : List (Option String × Source)}
    (h : ∀ m ∈ members, m.2.AllScalars P) : (Source.obj members).AllScalars P := by
  intro j hj s hs
  obtain ⟨js, hmembers, rfl⟩ := Option.map_eq_some_iff.mp hj
  obtain ⟨w, hw, hsw⟩ := Json.mem_scalars_obj.mp hs
  clear hj hs
  induction members generalizing js with
  | nil =>
    cases hmembers
    cases hw
  | cons m rest ih =>
    obtain ⟨hm, hrest⟩ := List.forall_mem_cons.mp h
    obtain ⟨key, v⟩ := m
    simp only [Source.membersToJson?, Option.bind_eq_bind, Option.bind_eq_some_iff] at hmembers
    obtain ⟨k, -, first, hfirst, others, hothers, heq⟩ := hmembers
    cases heq
    rcases List.mem_cons.mp hw with rfl | hw
    · exact hm first hfirst s hsw
    · exact ih hrest others hothers hw

/-- A number, string or word with a property. -/
theorem Source.allScalars_flat {v : Source} {w : Json} (hv : v.toJson? = some w)
    (hflat : w.isFlat = true) (h : P w) : v.AllScalars P := by
  intro j hj s hs
  rw [hv] at hj
  cases hj
  rw [Json.scalars_flat hflat] at hs
  rwa [List.mem_singleton.mp hs]

namespace Json

/-- A token that is no scalar without a property. -/
def Token.AllScalars (P : Json → Prop) : Token → Prop
  | .text (some s) => P (.str s)
  | .scalar v => v.AllScalars P
  | _ => True

/-! ## From tokens to the value -/

/-- The parts of a list or object that is still open. -/
def Frame.parts : Frame → List Source
  | .list items => items
  | .object members _ => members.map (·.2)

namespace Builder

/-- A state of the reader in which all scalars have a property. -/
structure AllScalars (P : Json → Prop) (b : Builder) : Prop where
  stack : ∀ frame ∈ b.stack, ∀ v ∈ frame.parts, v.AllScalars P
  finish : ∀ v, b.expected = .finish v → v.AllScalars P

variable {b b' : Builder} {t : Token} {v : Source} {stack : List Frame}

private theorem allScalars_ended {frame : Frame} (h : ∀ v ∈ frame.parts, v.AllScalars P) :
    (match frame with
      | .list items => Source.arr items.reverse
      | .object members _ => Source.obj members.reverse).AllScalars P := by
  cases frame with
  | list items => exact Source.allScalars_arr fun v hv ↦ h v (List.mem_reverse.mp hv)
  | object members key =>
    exact Source.allScalars_obj fun m hm ↦ h m.2 (List.mem_map_of_mem (List.mem_reverse.mp hm))

private theorem AllScalars.put (hv : v.AllScalars P)
    (hstack : ∀ frame ∈ stack, ∀ v ∈ frame.parts, v.AllScalars P) (n : Nat) :
    (put v stack n).AllScalars P := by
  cases stack with
  | nil =>
    refine ⟨List.forall_mem_nil _, fun w hw ↦ ?_⟩
    cases hw
    exact hv
  | cons frame rest =>
    obtain ⟨hframe, hrest⟩ := List.forall_mem_cons.mp hstack
    cases frame with
    | list items =>
      exact ⟨List.forall_mem_cons.mpr ⟨List.forall_mem_cons.mpr ⟨hv, hframe⟩, hrest⟩,
        fun _ hw ↦ nomatch hw⟩
    | object members key =>
      exact ⟨List.forall_mem_cons.mpr ⟨List.forall_mem_cons.mpr ⟨hv, hframe⟩, hrest⟩,
        fun _ hw ↦ nomatch hw⟩

private theorem AllScalars.close (h : b.AllScalars P) (hb : b.close = some b') :
    b'.AllScalars P := by
  obtain ⟨stack, n, expected⟩ := b
  cases stack with
  | nil => cases hb
  | cons frame rest =>
    obtain ⟨hframe, hrest⟩ := List.forall_mem_cons.mp h.stack
    cases hb
    refine AllScalars.put ?_ hrest _
    split
    · exact Source.allScalars_unreadable
    · exact allScalars_ended hframe

private theorem AllScalars.start (h : b.AllScalars P) (ht : t.AllScalars P)
    (hb : b.start t = some b') :
    b'.AllScalars P := by
  cases t with
  | openList =>
    cases hb
    exact ⟨List.forall_mem_cons.mpr ⟨List.forall_mem_nil _, h.stack⟩, fun _ hw ↦ nomatch hw⟩
  | openObject =>
    cases hb
    exact ⟨List.forall_mem_cons.mpr ⟨List.forall_mem_nil _, h.stack⟩, fun _ hw ↦ nomatch hw⟩
  | text s =>
    cases hb
    refine AllScalars.put ?_ h.stack _
    cases s with
    | none => exact Source.allScalars_unreadable
    | some s => exact Source.allScalars_flat rfl rfl ht
  | scalar v =>
    cases hb
    exact AllScalars.put ht h.stack _
  | _ => cases hb

private theorem AllScalars.readKey {key : Option String} (h : b.AllScalars P)
    (hb : b.readKey key = some b') : b'.AllScalars P := by
  obtain ⟨stack, n, expected⟩ := b
  match stack, h, hb with
  | .object members _ :: rest, h, hb =>
    cases hb
    obtain ⟨hframe, hrest⟩ := List.forall_mem_cons.mp h.stack
    exact ⟨List.forall_mem_cons.mpr ⟨hframe, hrest⟩, fun _ hw ↦ nomatch hw⟩

private theorem AllScalars.step (h : b.AllScalars P) (ht : t.AllScalars P)
    (hb : b.step t = some b') :
    b'.AllScalars P := by
  unfold Builder.step at hb
  split at hb
  · exact h.start ht hb
  · exact h.close hb
  · exact h.start ht hb
  · exact h.readKey hb
  · exact h.readKey hb
  · exact h.close hb
  · cases hb
    exact ⟨h.stack, fun _ hw ↦ nomatch hw⟩
  · cases hb
    refine ⟨h.stack, fun _ hw ↦ ?_⟩
    dsimp only at hw
    split at hw <;> cases hw
  · split at hb
    · exact h.close hb
    · cases hb
  · split at hb
    · cases hb
    · exact h.close hb
  · cases hb

private theorem AllScalars.run {ts : List Token} (h : b.AllScalars P)
    (hts : ∀ t ∈ ts, t.AllScalars P) (hb : ts.foldlM Builder.step b = some b') :
    b'.AllScalars P := by
  induction ts generalizing b with
  | nil =>
    cases hb
    exact h
  | cons t rest ih =>
    obtain ⟨ht, hrest⟩ := List.forall_mem_cons.mp hts
    rw [List.foldlM_cons, Option.bind_eq_bind, Option.bind_eq_some_iff] at hb
    obtain ⟨c, hc, hb⟩ := hb
    exact ih (h.step ht hc) hrest hb

end Builder

private theorem allScalars_of_ofText? {text : String} {ts : List Token} {v : Json}
    (htokens : tokens? text = some ts) (hts : ∀ t ∈ ts, t.AllScalars P)
    (h : ofText? text = some v) : ∀ s ∈ v.scalars, P s := by
  rw [ofText?, readSource?, htokens] at h
  simp only [Option.bind_eq_bind, Option.bind_some, Option.bind_eq_some_iff] at h
  obtain ⟨source, ⟨b, hb, hsource⟩, hv⟩ := h
  have hstart : Builder.AllScalars P ⟨[], 0, .value⟩ :=
    ⟨List.forall_mem_nil _, fun _ hw ↦ absurd hw (by simp)⟩
  have hfinish := (hstart.run hts hb).finish
  split at hsource
  · next hw =>
    cases hsource
    exact hfinish _ hw v hv
  · cases hsource

/-! ## Integers -/

/-- A scalar that fits into 64 bits if it is an integer. -/
def FitsIfInt (v : Json) : Prop := ∀ n, v = .int n → FitsInt64 n

private theorem fitsIfInt_read (n : Numeral) : (Literal.read n).AllScalars FitsIfInt := by
  rw [Literal.read]
  generalize (if n.isNegative = true then _ else _ : Int) = value
  split
  · next h =>
    simp only [Bool.and_eq_true, decide_eq_true_eq] at h
    refine Source.allScalars_flat rfl rfl fun m hm ↦ ?_
    cases hm
    exact ⟨h.1.1.2, h.1.2⟩
  · cases Literal.toDouble? n with
    | none => exact Source.allScalars_unreadable
    | some x => exact Source.allScalars_flat rfl rfl (by rintro m ⟨⟩)

private theorem fitsIfInt_scalar? {cs : List Char} {v : Source} (h : scalar? cs = some v) :
    v.AllScalars FitsIfInt := by
  unfold scalar? at h
  split at h
  · cases h
    exact Source.allScalars_flat rfl rfl fun m hm ↦ nomatch hm
  · cases h
    exact Source.allScalars_flat rfl rfl fun m hm ↦ nomatch hm
  · cases h
    exact Source.allScalars_flat rfl rfl fun m hm ↦ nomatch hm
  · split at h
    · split at h
      · cases h
        exact fitsIfInt_read _
      · cases h
    · cases h

namespace Lexer

variable {s s' : Lexer} {c : Char}

/-- Whether all integers among the tokens found fit into 64 bits. -/
def IntsFit (s : Lexer) : Prop := ∀ t ∈ s.tokens, t.AllScalars FitsIfInt

private theorem IntsFit.stepBetween {tokens : List Token} (h : ∀ t ∈ tokens, t.AllScalars FitsIfInt)
    (hs : stepBetween tokens c = some s') : s'.IntsFit := by
  have hpunctuation (t : Token) (ht : t.AllScalars FitsIfInt) :
      IntsFit ⟨t :: tokens, .between⟩ := List.forall_mem_cons.mpr ⟨ht, h⟩
  unfold Lexer.stepBetween at hs
  dsimp only at hs
  split_ifs at hs <;> cases hs
  case pos => exact h
  all_goals first | exact hpunctuation _ trivial | exact h

/-- A number or word that ends. -/
theorem IntsFit.endScalar {gathered : List Char} {v : Source} (h : s.IntsFit)
    (hv : scalar? gathered = some v) : ∀ t ∈ .scalar v :: s.tokens, t.AllScalars FitsIfInt :=
  List.forall_mem_cons.mpr ⟨fitsIfInt_scalar? hv, h⟩

private theorem IntsFit.step (h : s.IntsFit) (hs : s.step c = some s') : s'.IntsFit := by
  unfold Lexer.step at hs
  split at hs
  · exact IntsFit.stepBetween h hs
  · split at hs
    · cases hs
      exact h
    · obtain ⟨v, hv, hs⟩ := Option.bind_eq_some_iff.mp hs
      exact IntsFit.stepBetween (h.endScalar hv) hs
  · split_ifs at hs
    · cases hs
      refine List.forall_mem_cons.mpr ⟨?_, h⟩
      generalize Piece.assemble _ = spelled
      cases spelled with
      | none => exact trivial
      | some cs => exact fun _ hm ↦ nomatch hm
    · cases hs
      exact h
    · cases hs
      exact h
  · split at hs
    · cases hs
      exact h
    · obtain ⟨_, -, heq⟩ := Option.bind_eq_some_iff.mp hs
      cases heq
      exact h
  · obtain ⟨_, -, hs⟩ := Option.bind_eq_some_iff.mp hs
    split at hs <;> cases hs <;> exact h

private theorem IntsFit.run {cs : List Char} (h : s.IntsFit)
    (hs : cs.foldlM Lexer.step s = some s') :
    s'.IntsFit := by
  induction cs generalizing s with
  | nil =>
    cases hs
    exact h
  | cons c cs ih =>
    rw [List.foldlM_cons, Option.bind_eq_bind, Option.bind_eq_some_iff] at hs
    obtain ⟨u, hu, hs⟩ := hs
    exact ih (h.step hu) hs

private theorem IntsFit.finish {ts : List Token} (h : s.IntsFit) (hs : s.finish? = some ts) :
    ∀ t ∈ ts, t.AllScalars FitsIfInt := by
  unfold finish? at hs
  split at hs
  · cases hs
    exact fun t ht ↦ h t (List.mem_reverse.mp ht)
  · obtain ⟨v, hv, heq⟩ := Option.bind_eq_some_iff.mp hs
    cases heq
    exact fun t ht ↦ h.endScalar hv t (List.mem_reverse.mp ht)
  · cases hs

end Lexer

/-- Every integer of a value that is read from a text fits into 64 bits. -/
theorem fitsInt64_of_ofText? {text : String} {v : Json} (h : ofText? text = some v) {n : Int}
    (hn : .int n ∈ v.scalars) : FitsInt64 n := by
  obtain ⟨source, hsource, -⟩ := Option.bind_eq_some_iff.mp h
  obtain ⟨ts, hts, -⟩ := Option.bind_eq_some_iff.mp hsource
  obtain ⟨s, hs, hfinish⟩ := Option.bind_eq_some_iff.mp hts
  have hstart : Lexer.IntsFit ⟨[], .between⟩ := List.forall_mem_nil _
  exact allScalars_of_ofText? hts ((hstart.run hs).finish hfinish) h _ hn n rfl

end Json
end FilterPipeline
