/-
Reading operators. Operators that group to the left, and likewise calls and attributes, are read by a
reader that has come to some expression and goes on from there. So what such a reader does with the
tokens of an expression is to come to this expression, with some of its bound left to go on from it: for
the left operand of an operator this is the same reader, and the operator is one more round.
-/
import LivePatch.Proofs.Syntax.Reading

namespace LivePatch

/-- Behind the tokens `ts` the reader has come to an expression with the property `Q`, from which `go` goes
on: the bound that it was given is more than the bound that is left by at most the number of tokens. -/
def Grows (r : Nat → Reader Expr) (go : Nat → Expr → Reader Expr) (ts : List Token)
    (F : Option Token → Prop) (Q : Expr → Prop) : Prop :=
  ∀ (k : Nat) (last : Span) (ps rest : List PlacedToken), ts.length ≤ k → ps.map (·.token) = ts →
    F (rest.head?.map (·.token)) →
    ∃ e last' j, k ≤ j + ts.length ∧ r k ⟨last, ps ++ rest⟩ = go j e ⟨last', rest⟩ ∧ Q e

/-- In one round the first reader passes the tokens `ts` and hands an expression on to the second. -/
def Round (r : Reader Expr) (go : Expr → Reader Expr) (ts : List Token) (F : Option Token → Prop)
    (Q : Expr → Prop) : Prop :=
  ∀ (last : Span) (ps rest : List PlacedToken), ps.map (·.token) = ts → F (rest.head?.map (·.token)) →
    ∃ e last', r ⟨last, ps ++ rest⟩ = go e ⟨last', rest⟩ ∧ Q e

section Rules

variable {r : Nat → Reader Expr} {go : Nat → Expr → Reader Expr} {part : Reader Expr} {ts us : List Token}
  {t : Token} {F G : Option Token → Prop} {Q R : Expr → Prop}

namespace Round

variable {α : Type} {P : α → Prop} {part : Reader α} {f : α → Reader Expr} {go' : Expr → Reader Expr}

theorem imp {go : Reader Expr} (h : Round go go' ts F Q) (hQ : ∀ e, Q e → R e) : Round go go' ts F R := by
  intro last ps rest hps hrest
  obtain ⟨e, last', hr, he⟩ := h last ps rest hps hrest
  exact ⟨e, last', hr, hQ e he⟩

theorem done {e : Expr} (he : Q e) : Round (go' e) go' [] F Q := by
  intro last ps rest hps _
  obtain rfl := List.map_eq_nil_iff.1 hps
  exact ⟨e, last, rfl, he⟩

theorem bind (h : Reads part ts F P) (hf : ∀ a, P a → Round (f a) go' us G Q)
    (hnext : ∀ o, G o → F (us.head?.or o)) : Round (part >>= f) go' (ts ++ us) G Q := by
  intro last ps rest hps hrest
  obtain ⟨ps₁, ps₂, rfl, h₁, h₂⟩ := List.map_eq_append_iff.1 hps
  have hhead : (ps₂ ++ rest).head?.map (·.token) = us.head?.or (rest.head?.map (·.token)) := by
    rw [← h₂]
    cases ps₂ <;> rfl
  obtain ⟨a, last₁, hrun, ha⟩ := h last ps₁ (ps₂ ++ rest) h₁ (by rw [hhead]; exact hnext _ hrest)
  obtain ⟨e, last₂, hrun', he⟩ := hf a ha last₁ ps₂ rest h₂ hrest
  refine ⟨e, last₂, ?_, he⟩
  show EStateM.bind part f _ = _
  unfold EStateM.bind
  rw [List.append_assoc, hrun]
  exact hrun'

theorem look (h : Reads part [] F P) (hf : ∀ a, P a → Round (f a) go' us G Q)
    (hnext : ∀ o, G o → F (us.head?.or o)) : Round (part >>= f) go' us G Q := .bind h hf hnext

theorem step (h : Reads part [t] (fun _ => True) P) (hf : ∀ a, P a → Round (f a) go' us G Q) :
    Round (part >>= f) go' (t :: us) G Q := .bind h hf fun _ _ => trivial

theorem finish (h : Reads part ts F P) (hf : ∀ a, P a → Round (f a) go' [] F Q) :
    Round (part >>= f) go' ts F Q := by
  rw [← List.append_nil ts]
  exact .bind h hf fun _ ho => ho

end Round

namespace Grows

theorem imp (h : Grows r go ts F Q) (hF : ∀ o, G o → F o) (hQ : ∀ e, Q e → R e) : Grows r go ts G R := by
  intro k last ps rest hk hps hrest
  obtain ⟨e, last', j, hj, hr, he⟩ := h k last ps rest hk hps (hF _ hrest)
  exact ⟨e, last', j, hj, hr, hQ e he⟩

/-- A reader that begins with another one grows from what that one reads. -/
theorem start (h : Reads part ts F Q) (hr : ∀ k, r k = part >>= go k) : Grows r go ts F Q := by
  intro k last ps rest _ hps hrest
  obtain ⟨e, last', hpart, he⟩ := h last ps rest hps hrest
  refine ⟨e, last', k, Nat.le_add_right _ _, ?_, he⟩
  rw [hr]
  show EStateM.bind part (go k) _ = _
  unfold EStateM.bind
  rw [hpart]

/-- One more round. -/
theorem round (h : Grows r go ts F Q) (hus : us ≠ [])
    (hround : ∀ j e, Q e → us.length ≤ j + 1 → Round (go (j + 1) e) (go j) us G R)
    (hnext : F us.head?) : Grows r go (ts ++ us) G R := by
  intro k last ps rest hk hps hrest
  obtain ⟨ps₁, ps₂, rfl, h₁, h₂⟩ := List.map_eq_append_iff.1 hps
  rw [List.length_append] at hk ⊢
  have hpos := List.length_pos_iff.2 hus
  have hhead : (ps₂ ++ rest).head?.map (·.token) = us.head? := by
    rw [← h₂]
    cases ps₂ with
    | nil => exact absurd h₂.symm hus
    | cons p ps₂ => rfl
  obtain ⟨e, last₁, j, hj, hr, he⟩ := h k last ps₁ (ps₂ ++ rest) (by omega) h₁ (by rw [hhead]; exact hnext)
  obtain ⟨j, rfl⟩ : ∃ i, j = i + 1 := ⟨j - 1, by omega⟩
  obtain ⟨e', last₂, hr', he'⟩ := hround j e he (by omega) last₁ ps₂ rest h₂ hrest
  refine ⟨e', last₂, j, by omega, ?_, he'⟩
  rw [List.append_assoc, hr, hr']

/-- Before a token from which it does not go on, the reader ends with the expression. -/
theorem reads (h : Grows r go ts F Q) (hstop : ∀ j e, Reads (go j e) [] G (· = e))
    (hF : ∀ o, G o → F o) {k : Nat} (hk : ts.length ≤ k) : Reads (r k) ts G Q := by
  intro last ps rest hps hrest
  obtain ⟨e, last₁, j, -, hr, he⟩ := h k last ps rest hk hps (hF _ hrest)
  obtain ⟨e', last₂, hgo, rfl⟩ := hstop j e last₁ [] rest rfl hrest
  exact ⟨e', last₂, hr.trans hgo, he⟩

end Grows

/-! ## Operators between operands -/

section Between

variable {op? : Token → Option BinaryOp} {operand : Reader Expr} {op : BinaryOp}

/-- The left operand on its own. -/
theorem Grows.ofOperand (h : Reads operand ts F Q) :
    Grows (Reader.chain op? operand) (Reader.chainFrom op? operand) ts F Q := .start h fun _ => rfl

theorem Reads.chainFrom_stop (hstop : ∀ t, G (some t) → op? t = none) (j : Nat) (e : Expr) :
    Reads (Reader.chainFrom op? operand j e) [] G (· = e) := by
  cases j with
  | zero => exact .pure rfl
  | succ j =>
    intro last ps rest hps hrest
    obtain rfl := List.map_eq_nil_iff.1 hps
    refine ⟨e, last, ?_, rfl⟩
    unfold Reader.chainFrom
    show EStateM.bind Reader.peek _ _ = _
    unfold EStateM.bind Reader.peek
    simp only [List.nil_append]
    cases ht : rest.head?.map (·.token) with
    | none => rfl
    | some t =>
      rw [ht] at hrest
      simp only [Option.bind_some, hstop t hrest]
      rfl

/-- An operator with its right operand is a round. -/
theorem Round.operator {l : Expr} (hop : op? t = some op) (h : Reads operand us F R) (j : Nat) :
    Round (Reader.chainFrom op? operand (j + 1) l) (Reader.chainFrom op? operand j) (t :: us) F
      fun e => ∃ r, R r ∧ e = .join op l r := by
  unfold Reader.chainFrom
  refine Round.look (Reads.peek (some t)) ?_ fun _ _ => rfl
  rintro _ rfl
  simp only [Option.bind_some, hop]
  refine Round.step (Reads.advance t) ?_
  rintro ⟨⟩ -
  refine Round.finish h ?_
  intro r hr
  exact .done ⟨r, hr, rfl⟩

/-- A comparison, if an operand is followed by one. -/
theorem Reads.compared (h : Reads operand ts F Q) (hop : BinaryOp.ofComparison? t = some op)
    (ht : F (some t)) (h' : Reads operand us F R) :
    Reads (Reader.compared operand) (ts ++ t :: us) F fun e => ∃ l r, Q l ∧ R r ∧ e = .join op l r := by
  unfold Reader.compared
  refine h.bind ?_ fun _ _ => ht
  intro l hl
  refine (Reads.peek (some t)).look ?_ fun _ _ => rfl
  rintro _ rfl
  simp only [Option.bind_some, hop]
  refine (Reads.advance t).step ?_
  rintro ⟨⟩ -
  refine h'.finish ?_
  intro r hr
  exact .pure ⟨l, r, hl, hr, rfl⟩

theorem Reads.not_compared (h : Reads operand ts F Q) (hF : ∀ o, G o → F o)
    (hstop : ∀ t, G (some t) → BinaryOp.ofComparison? t = none) :
    Reads (Reader.compared operand) ts G Q := by
  unfold Reader.compared
  rw [← List.append_nil ts]
  refine h.bind ?_ hF
  intro l hl last ps rest hps hrest
  obtain rfl := List.map_eq_nil_iff.1 hps
  refine ⟨l, last, ?_, hl⟩
  show EStateM.bind Reader.peek _ _ = _
  unfold EStateM.bind Reader.peek
  simp only [List.nil_append]
  cases ht : rest.head?.map (·.token) with
  | none => rfl
  | some t =>
    rw [ht] at hrest
    simp only [Option.bind_some, hstop t hrest]
    rfl

end Between

/-! ## Operators before an operand -/

section Before

variable {op : UnaryOp} {operand : Reader Expr}

theorem Reads.led {k : Nat} (h : Reads (Reader.led t op operand k) ts F Q) :
    Reads (Reader.led t op operand (k + 1)) (t :: ts) F fun e => ∃ s e', Q e' ∧ e = .lead op s e' := by
  unfold Reader.led
  refine (Reads.at? t true).look ?_ fun _ _ => by simp
  rintro _ rfl
  refine (Reads.expect t).step ?_
  rintro s -
  refine h.finish ?_
  intro e he
  exact .pure ⟨s, e, he, rfl⟩

theorem Reads.not_led {k : Nat} (h : Reads operand ts F Q) (hhead : ∃ u ∈ ts.head?, u ≠ t) :
    Reads (Reader.led t op operand (k + 1)) ts F Q := by
  obtain ⟨u, hu, hne⟩ := hhead
  unfold Reader.led
  refine (Reads.at? t false).look ?_ fun _ _ => by rw [hu]; simpa using hne
  rintro _ rfl
  exact h

end Before

/-! ## Calls and attributes -/

section Trailers

variable {expr : Reader Expr} {Q : Expr → Prop}

theorem Reads.primary {t : Token} {e : Span → Expr}
    (h : ∀ s rest last, Reader.primary expr ⟨last, ⟨t, s⟩ :: rest⟩ = .ok (e s) ⟨s, rest⟩) :
    Reads (Reader.primary expr) [t] (fun _ => True) fun e' => ∃ s, e' = e s := by
  intro last ps rest hps _
  obtain ⟨⟨t', s⟩, ps, rfl, ht, hps⟩ := List.map_eq_cons_iff.1 hps
  obtain rfl := List.map_eq_nil_iff.1 hps
  obtain rfl : t' = t := ht
  exact ⟨e s, s, h s rest last, s, rfl⟩

/-- An expression between brackets. -/
theorem Reads.bracketed (h : Reads expr ts F Q) (hF : F (some (.sign .rightParen))) :
    Reads (Reader.primary expr) (.sign .leftParen :: ts ++ [.sign .rightParen]) (fun _ => True)
      fun e => ∃ e' s, Q e' ∧ e = e'.withSpan s := by
  intro last ps rest hps hrest
  rw [List.cons_append] at hps
  obtain ⟨⟨t, s⟩, ps', rfl, ht, hps'⟩ := List.map_eq_cons_iff.1 hps
  obtain rfl : t = .sign .leftParen := ht
  have hinner : Reads (do
      let inner ← expr
      let close ← Reader.expect (.sign .rightParen)
      return inner.withSpan (s.merge close) : Reader Expr) (ts ++ [.sign .rightParen]) (fun _ => True)
      fun e => ∃ e' s, Q e' ∧ e = e'.withSpan s := by
    refine h.bind ?_ fun _ _ => hF
    intro e he
    refine (Reads.expect _).step ?_
    rintro close -
    exact .pure ⟨e, _, he, rfl⟩
  exact hinner s ps' rest hps' hrest

theorem Grows.ofPrimary (h : Reads (Reader.primary expr) ts F Q) :
    Grows (Reader.trailed expr) (Reader.trailersFrom expr) ts F Q := .start h fun _ => rfl

theorem Reads.trailersFrom_stop (j : Nat) (e : Expr) :
    Reads (Reader.trailersFrom expr j e) []
      (fun o => o ≠ some (.sign .leftParen) ∧ o ≠ some (.sign .dot)) (· = e) := by
  cases j with
  | zero => exact .pure rfl
  | succ j =>
    unfold Reader.trailersFrom
    refine (Reads.eat_none _).look ?_ fun _ ho => ho.1
    rintro _ rfl
    refine (Reads.eat_none _).look ?_ fun _ ho => ho.2
    rintro _ rfl
    exact .pure rfl

/-- The arguments of a call with the bracket behind them. -/
theorem Reads.arguments {n : Nat} {P : List Expr → Prop}
    (h : Reads (Reader.separated (.sign .rightParen) expr n) ts (· = some (.sign .rightParen)) P) :
    Reads (Reader.arguments expr n) (ts ++ [.sign .rightParen]) (fun _ => True) P := by
  unfold Reader.arguments
  refine h.bind ?_ fun _ _ => rfl
  intro es hes
  refine (Reads.expect _).step ?_
  rintro _ -
  exact .pure hes

/-- An attribute is a round. -/
theorem Round.attr (e : Expr) (x : Name) (j : Nat) :
    Round (Reader.trailersFrom expr (j + 1) e) (Reader.trailersFrom expr j) [.sign .dot, .ident x]
      (fun _ => True) fun e' => ∃ s, e' = .attr e x s := by
  unfold Reader.trailersFrom
  refine Round.look (Reads.eat_none _) ?_ fun _ _ => by simp
  rintro _ rfl
  refine Round.step (Reads.eat _) ?_
  rintro _ rfl
  refine Round.step (Reads.ident x _) ?_
  rintro ⟨y, s⟩ rfl
  exact .done ⟨_, rfl⟩

/-- The arguments of a call are a round. -/
theorem Round.call (e : Expr) (j : Nat) {P : List Expr → Prop}
    (h : Reads (Reader.separated (.sign .rightParen) expr j) ts (· = some (.sign .rightParen)) P) :
    Round (Reader.trailersFrom expr (j + 1) e) (Reader.trailersFrom expr j)
      (.sign .leftParen :: (ts ++ [.sign .rightParen])) (fun _ => True)
      fun e' => ∃ es s, P es ∧ e' = .call e es s := by
  unfold Reader.trailersFrom
  refine Round.step (Reads.eat _) ?_
  rintro _ rfl
  refine Round.finish (Reads.arguments h) ?_
  intro es hes
  refine Round.look Reads.last ?_ fun _ _ => trivial
  rintro close -
  exact .done ⟨es, _, hes, rfl⟩

end Trailers

end Rules

end LivePatch
