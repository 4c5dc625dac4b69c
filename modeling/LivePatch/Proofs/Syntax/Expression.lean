/-
Reading expressions. The tokens of an expression are read back by the reader of its level, and by that of
every looser level, as long as the token behind them does not hold tighter than the level; between
brackets they are read by the reader of every level. The proof follows the tree: each operand stands in a
place that asks for a level, and is read by the reader of this level.
-/
import LivePatch.Proofs.Syntax.Operators

namespace LivePatch

open Spelling (bracketed commas)

/-! ## What may come next -/

/-- How tightly a token holds what stands before it, if it goes on with an expression at all. -/
def Token.tightness : Token → Nat
  | .keyword .or => 1
  | .keyword .and => 2
  | .sign .equalEqual | .sign .notEqual | .sign .less | .sign .lessEqual | .sign .greater
  | .sign .greaterEqual => 4
  | .sign .plus | .sign .minus => 5
  | .sign .star | .sign .slash | .sign .percent => 6
  | .sign .leftParen | .sign .dot => 8
  | _ => 0

/-- What comes next does not go on with an expression of the level. -/
def Stops (ℓ : Nat) (o : Option Token) : Prop := ∀ t ∈ o, t.tightness < ℓ

theorem Stops.mono {ℓ ℓ' : Nat} (h : ℓ ≤ ℓ') (o : Option Token) (ho : Stops ℓ o) : Stops ℓ' o :=
  fun t ht => Nat.lt_of_lt_of_le (ho t ht) h

theorem Stops.some {ℓ : Nat} {t : Token} : Stops ℓ (some t) ↔ t.tightness < ℓ := by
  simp [Stops]

theorem BinaryOp.tightness_token (op : BinaryOp) : op.token.tightness = op.level := by
  cases op <;> rfl

/-- The operator between operands of a level that a token stands for. -/
def BinaryOp.atLevel? : Nat → Token → Option BinaryOp
  | 1 => ofDisjunction?
  | 2 => ofConjunction?
  | 4 => ofComparison?
  | 5 => ofSum?
  | 6 => ofProduct?
  | _ => fun _ => none

theorem BinaryOp.atLevel?_token (op : BinaryOp) : atLevel? op.level op.token = some op := by
  cases op <;> rfl

theorem BinaryOp.level_of_atLevel? {ℓ : Nat} {t : Token} {op : BinaryOp} (h : atLevel? ℓ t = some op) :
    t.tightness = ℓ := by
  unfold atLevel? at h
  split at h
  · unfold ofDisjunction? at h
    split at h <;> first | rfl | cases h
  · unfold ofConjunction? at h
    split at h <;> first | rfl | cases h
  · unfold ofComparison? at h
    split at h <;> first | rfl | cases h
  · unfold ofSum? at h
    split at h <;> first | rfl | cases h
  · unfold ofProduct? at h
    split at h <;> first | rfl | cases h
  · cases h

/-- A token that does not go on with an expression is no operator of its level. -/
theorem Stops.atLevel? {ℓ : Nat} (t : Token) (h : Stops ℓ (.some t)) : BinaryOp.atLevel? ℓ t = none := by
  cases ht : BinaryOp.atLevel? ℓ t with
  | none => rfl
  | some op => exact absurd (BinaryOp.level_of_atLevel? ht) (Nat.ne_of_lt (Stops.some.1 h))

/-! ## What an expression begins with -/

theorem BinaryOp.level_bounds (op : BinaryOp) : 1 ≤ op.level ∧ op.level ≤ op.leftLevel ∧ op.leftLevel ≤ 7 := by
  cases op <;> decide

theorem UnaryOp.level_bounds (op : UnaryOp) : 1 ≤ op.level ∧ op.level ≤ 7 := by
  cases op <;> decide

theorem Expr.level_bounds (e : Expr) : 1 ≤ e.level ∧ e.level ≤ 8 := by
  cases e with
  | binary op =>
    have h := op.level_bounds
    exact ⟨h.1, by show op.level ≤ 8; omega⟩
  | unary op =>
    have h := op.level_bounds
    exact ⟨h.1, by show op.level ≤ 8; omega⟩
  | _ => exact (show 1 ≤ 8 ∧ 8 ≤ 8 by decide)

/-- The tightest level of the expressions that begin with a token. -/
def Token.opening : Token → Nat
  | .keyword .not => 3
  | .sign .minus => 7
  | .int _ | .str _ | .ident _ | .keyword .true | .keyword .false | .keyword .none | .sign .leftParen => 8
  | _ => 0

/-- Some tokens begin like an expression of the level. -/
def Opens (ℓ : Nat) (ts : List Token) : Prop := ∃ t ∈ ts.head?, ℓ ≤ t.opening

theorem Opens.mono {ℓ ℓ' : Nat} {ts : List Token} (ho : Opens ℓ ts) (h : ℓ' ≤ ℓ) : Opens ℓ' ts := by
  obtain ⟨t, ht, hle⟩ := ho
  exact ⟨t, ht, Nat.le_trans h hle⟩

theorem Opens.append {ℓ : Nat} {ts : List Token} (ho : Opens ℓ ts) (us : List Token) :
    Opens ℓ (ts ++ us) := by
  obtain ⟨t, ht, hle⟩ := ho
  refine ⟨t, ?_, hle⟩
  rw [List.head?_append, ht]
  rfl

theorem Opens.ne_of_opening {ℓ : Nat} {ts : List Token} (ho : Opens ℓ ts) {u : Token}
    (hu : u.opening < ℓ) : ∃ t ∈ ts.head?, t ≠ u := by
  obtain ⟨t, ht, hle⟩ := ho
  refine ⟨t, ht, ?_⟩
  rintro rfl
  exact Nat.not_le.2 hu hle

theorem Opens.bracketed {ℓ : Nat} {e : Expr} (ho : Opens e.level e.spell) (hℓ : ℓ ≤ 8) :
    Opens ℓ (e.spellAt ℓ) := by
  unfold Expr.spellAt Spelling.bracketed
  by_cases h : e.level < ℓ
  · simp only [h, decide_true, if_true]
    exact ⟨_, rfl, hℓ⟩
  · simp only [h, decide_false, Bool.false_eq_true, if_false]
    exact ho.mono (Nat.not_lt.1 h)

theorem Expr.opens_spell : ∀ e : Expr, Opens e.level e.spell
  | .int .. | .str .. | .bool true _ | .bool false _ | .none _ | .ident .. => ⟨_, rfl, Nat.le_refl _⟩
  | .attr object _ _ => (Opens.bracketed object.opens_spell (Nat.le_refl _)).append _
  | .call callee _ _ => (Opens.bracketed callee.opens_spell (Nat.le_refl _)).append _
  | .binary op left _ _ => by
    have h := op.level_bounds
    exact ((Opens.bracketed left.opens_spell (by omega)).mono h.2.1).append _
  | .unary op _ _ => ⟨_, rfl, by cases op <;> exact Nat.le_refl _⟩

/-- Every expression begins like one of the loosest level. -/
theorem Expr.opens (e : Expr) : Opens 1 e.spell := e.opens_spell.mono e.level_bounds.1

/-! ## Levels of readers -/

namespace Reader

/-- The reader of a level. -/
def ofLevel (n : Nat) : Nat → Reader Expr
  | 1 => disjunction (expression n) (n + 1)
  | 2 => conjunction (expression n) (n + 1)
  | 3 => negated (expression n) (n + 1)
  | 4 => compared (sum (expression n) (n + 1))
  | 5 => sum (expression n) (n + 1)
  | 6 => product (expression n) (n + 1)
  | 7 => signed (expression n) (n + 1)
  | 8 => trailed (expression n) (n + 1)
  | _ => expected .expression

end Reader

open Reader (ofLevel)

/-- The reader of a level reads the tokens of an expression with the property `Q`. At a level on which
readers go on from an expression, it can go on from this one. -/
def ReadsAt (n : Nat) (ts : List Token) (Q : Expr → Prop) (ℓ : Nat) : Prop :=
  match ℓ with
  | 1 | 2 | 5 | 6 =>
    Grows (Reader.chain (BinaryOp.atLevel? ℓ) (ofLevel n (ℓ + 1)))
      (Reader.chainFrom (BinaryOp.atLevel? ℓ) (ofLevel n (ℓ + 1))) ts (Stops (ℓ + 1)) Q
  | 3 => ∀ k, ts.length ≤ k → Reads (Reader.led (.keyword .not) .not (ofLevel n 4) (k + 1)) ts (Stops 3) Q
  | 4 => Reads (Reader.compared (ofLevel n 5)) ts (Stops 4) Q
  | 7 => ∀ k, ts.length ≤ k → Reads (Reader.led (.sign .minus) .neg (ofLevel n 8) (k + 1)) ts (Stops 7) Q
  | 8 =>
    Grows (Reader.trailed (Reader.expression n)) (Reader.trailersFrom (Reader.expression n)) ts
      (fun _ => True) Q
  | _ => False

namespace ReadsAt

variable {n ℓ : Nat} {ts : List Token} {Q : Expr → Prop}

/-- The reader of the level passes the tokens, when what comes next does not go on with them. -/
theorem reads (h : ReadsAt n ts Q ℓ) (hn : ts.length ≤ n) : Reads (ofLevel n ℓ) ts (Stops ℓ) Q := by
  unfold ReadsAt at h
  split at h
  · exact h.reads (Reads.chainFrom_stop Stops.atLevel?) (Stops.mono (by decide)) (by omega)
  · exact h.reads (Reads.chainFrom_stop Stops.atLevel?) (Stops.mono (by decide)) (by omega)
  · exact h.reads (Reads.chainFrom_stop Stops.atLevel?) (Stops.mono (by decide)) (by omega)
  · exact h.reads (Reads.chainFrom_stop Stops.atLevel?) (Stops.mono (by decide)) (by omega)
  · exact h n hn
  · exact h
  · exact h n hn
  · refine h.reads (fun j e => (Reads.trailersFrom_stop j e).imp ?_ fun _ he => he) (fun _ _ => trivial) (by omega)
    intro o ho
    constructor
    · rintro rfl
      exact absurd (Stops.some.1 ho) (by decide)
    · rintro rfl
      exact absurd (Stops.some.1 ho) (by decide)
  · cases h

/-- What is read at a level is read at the next looser one. -/
theorem loosen (h : ReadsAt n ts Q (ℓ + 1)) (ho : Opens (ℓ + 1) ts) (hn : ts.length ≤ n) (hℓ : 1 ≤ ℓ) :
    ReadsAt n ts Q ℓ := by
  have hr := h.reads hn
  match ℓ with
  | 1 | 2 | 5 | 6 => exact .ofOperand hr
  | 3 => exact fun k _ => .not_led (hr.imp (Stops.mono (by decide)) fun _ he => he) (ho.ne_of_opening (by decide))
  | 4 => exact .not_compared hr (Stops.mono (by decide)) Stops.atLevel?
  | 7 => exact fun k _ => .not_led (hr.imp (Stops.mono (by decide)) fun _ he => he) (ho.ne_of_opening (by decide))
  | ℓ + 8 => cases h

/-- What is read at a level is read at every looser one. -/
theorem descend {d : Nat} (h : ReadsAt n ts Q (ℓ + d)) (ho : Opens (ℓ + d) ts) (hn : ts.length ≤ n)
    (hℓ : 1 ≤ ℓ) : ReadsAt n ts Q ℓ := by
  induction d with
  | zero => exact h
  | succ d ih => exact ih (h.loosen (ℓ := ℓ + d) ho hn (by omega)) (ho.mono (by omega))

/-- An expression between brackets is read at the tightest level. -/
theorem bracketed (h : ReadsAt n ts Q 1) (hn : ts.length ≤ n)
    (hQ : ∀ e s, Q e → Q (e.withSpan s)) :
    ReadsAt (n + 1) (.sign .leftParen :: ts ++ [.sign .rightParen]) Q 8 := by
  have hr : Reads (Reader.expression (n + 1)) ts (Stops 1) Q := h.reads hn
  refine Grows.ofPrimary ((hr.bracketed (Stops.some.2 (by decide))).imp (fun _ ho => ho) ?_)
  rintro _ ⟨e, s, he, rfl⟩
  exact hQ e s he

end ReadsAt

/-! ## Trees up to places -/

namespace Expr

/-- The two expressions are the same but for the places of their nodes. -/
def Same (e e' : Expr) : Prop := e'.unplaced = e.unplaced

theorem unplaced_withSpan (s : Span) (e : Expr) : (e.withSpan s).unplaced = e.unplaced := by
  cases e <;> rfl

theorem unplacedAll_of_forall₂ {es es' : List Expr} (h : List.Forall₂ Same es es') :
    unplacedAll es' = unplacedAll es := by
  induction h with
  | nil => rfl
  | cons he _ ih =>
    unfold unplacedAll
    rw [show _ = _ from he, ih]

theorem spellEach_eq_map (es : List Expr) : spellEach es = es.map spell := by
  induction es with
  | nil => rfl
  | cons e es ih =>
    rw [spellEach, ih]
    rfl

end Expr

/-! ## Lengths -/

theorem Spelling.length_le_commas {ts : List Token} : ∀ {tss : List (List Token)}, ts ∈ tss →
    ts.length ≤ (commas tss).length
  | [_], h => by
    rw [List.mem_singleton.1 h]
    exact Nat.le_refl _
  | us :: vs :: tss, h => by
    show _ ≤ (us ++ .sign .comma :: commas (vs :: tss)).length
    rw [List.length_append, List.length_cons]
    rcases List.mem_cons.1 h with rfl | h
    · exact Nat.le_add_right _ _
    · have hle := length_le_commas h
      omega

theorem Spelling.count_le_commas : ∀ {tss : List (List Token)}, (∀ ts ∈ tss, ts ≠ []) →
    tss.length ≤ (commas tss).length
  | [], _ => Nat.le_refl _
  | [ts], h => List.length_pos_iff.2 (h ts (List.mem_singleton_self _))
  | us :: vs :: tss, h => by
    show _ ≤ (us ++ .sign .comma :: commas (vs :: tss)).length
    have hle := count_le_commas fun ts hts => h ts (List.mem_cons_of_mem us hts)
    rw [List.length_append, List.length_cons, List.length_cons]
    exact Nat.le_trans (Nat.succ_le_succ hle) (Nat.le_add_left _ _)

namespace Expr

theorem spell_ne_nil (e : Expr) : e.spell ≠ [] := by
  obtain ⟨t, ht, -⟩ := e.opens
  rintro he
  rw [he] at ht
  cases ht

theorem spell_head_ne (e : Expr) {u : Token} (hu : u.opening = 0) : ∃ t ∈ e.spell.head?, t ≠ u :=
  e.opens.ne_of_opening (by omega)

end Expr

/-! ## All expressions -/

section Places

variable {n ℓ : Nat} {e : Expr}

theorem ReadsAt.looser (h : ReadsAt n e.spell e.Same e.level) (h₁ : 1 ≤ ℓ) (hℓ : ℓ ≤ e.level)
    (hn : e.spell.length ≤ n) : ReadsAt n e.spell e.Same ℓ := by
  have ho := e.opens_spell
  obtain ⟨d, hd⟩ := Nat.exists_eq_add_of_le hℓ
  rw [hd] at h ho
  exact h.descend ho hn h₁

/-- If an expression is read at its own level, it is read in any place. -/
theorem ReadsAt.spellAt (h : ∀ {n}, e.spell.length ≤ n → ReadsAt n e.spell e.Same e.level) (h₁ : 1 ≤ ℓ)
    (h₈ : ℓ ≤ 8) (hn : (e.spellAt ℓ).length ≤ n) : ReadsAt n (e.spellAt ℓ) e.Same ℓ := by
  have ho := Opens.bracketed e.opens_spell (Nat.le_refl 8)
  unfold Expr.spellAt Spelling.bracketed at hn ⊢
  by_cases hlt : e.level < ℓ
  · -- between brackets it is read at the tightest level
    have h₈' : e.level < 8 := Nat.lt_of_lt_of_le hlt h₈
    unfold Expr.spellAt Spelling.bracketed at ho
    simp only [hlt, h₈', decide_true, if_true] at hn ho ⊢
    simp only [List.length_append, List.length_cons, List.length_nil] at hn
    obtain ⟨n, rfl⟩ : ∃ i, n = i + 1 := ⟨n - 1, by omega⟩
    have hinner := (h (n := n) (by omega)).looser (Nat.le_refl 1) e.level_bounds.1 (by omega)
    have houter := hinner.bracketed (by omega) fun e' s he' => (Expr.unplaced_withSpan s e').trans he'
    obtain ⟨d, hd⟩ := Nat.exists_eq_add_of_le h₈
    rw [hd] at houter ho
    exact houter.descend ho (by simpa using hn) h₁
  · simp only [hlt, decide_false, Bool.false_eq_true, if_false] at hn ⊢
    exact (h hn).looser h₁ (Nat.not_lt.1 hlt) hn

end Places

/-! ## Nodes -/

namespace ReadsAt

variable {n ℓ : Nat} {ts us : List Token} {Q R : Expr → Prop}

theorem imp (h : ReadsAt n ts Q ℓ) (hQ : ∀ e, Q e → R e) : ReadsAt n ts R ℓ := by
  unfold ReadsAt at h ⊢
  split at h
  · exact h.imp (fun _ ho => ho) hQ
  · exact h.imp (fun _ ho => ho) hQ
  · exact h.imp (fun _ ho => ho) hQ
  · exact h.imp (fun _ ho => ho) hQ
  · exact fun k hk => (h k hk).imp (fun _ ho => ho) hQ
  · exact h.imp (fun _ ho => ho) hQ
  · exact fun k hk => (h k hk).imp (fun _ ho => ho) hQ
  · exact h.imp (fun _ ho => ho) hQ
  · cases h

theorem primary {t : Token} {e : Span → Expr}
    (h : ∀ s rest last, Reader.primary (Reader.expression n) ⟨last, ⟨t, s⟩ :: rest⟩ = .ok (e s) ⟨s, rest⟩)
    (he : ∀ s, Q (e s)) : ReadsAt n [t] Q 8 := by
  refine Grows.ofPrimary ((Reads.primary h).imp (fun _ ho => ho) ?_)
  rintro _ ⟨s, rfl⟩
  exact he s

/-- An operator that groups to the left, between its operands. -/
theorem grouped (op : BinaryOp) (hop : op.leftLevel = op.level) (hl : ReadsAt n ts Q op.leftLevel)
    (hr : Reads (ofLevel n op.rightLevel) us (Stops op.rightLevel) R) :
    ReadsAt n (ts ++ op.token :: us) (fun e => ∃ l r, Q l ∧ R r ∧ e = .join op l r) op.level := by
  rw [hop] at hl
  have hgrows : ∀ {ts' : List Token} {Q' : Expr → Prop}, ReadsAt n ts' Q' op.level ↔
      Grows (Reader.chain (BinaryOp.atLevel? op.level) (ofLevel n op.rightLevel))
        (Reader.chainFrom (BinaryOp.atLevel? op.level) (ofLevel n op.rightLevel)) ts'
        (Stops op.rightLevel) Q' := by
    cases op <;> first | exact Iff.rfl | cases hop
  refine hgrows.2 ((hgrows.1 hl).round (List.cons_ne_nil _ _) (fun j l hq _ => ?_) ?_)
  · refine (Round.operator op.atLevel?_token hr j).imp ?_
    rintro _ ⟨r, hr, rfl⟩
    exact ⟨l, r, hq, hr, rfl⟩
  · refine Stops.some.2 ?_
    rw [op.tightness_token]
    exact Nat.lt_succ_self _

/-- A comparison of two sums. -/
theorem comparison (op : BinaryOp) (hop : op.leftLevel ≠ op.level)
    (hl : Reads (ofLevel n op.leftLevel) ts (Stops op.leftLevel) Q)
    (hr : Reads (ofLevel n op.rightLevel) us (Stops op.rightLevel) R) :
    ReadsAt n (ts ++ op.token :: us) (fun e => ∃ l r, Q l ∧ R r ∧ e = .join op l r) op.level := by
  have hlevels : op.level = 4 ∧ op.leftLevel = 5 ∧ op.rightLevel = 5 := by
    cases op <;> first | exact ⟨rfl, rfl, rfl⟩ | exact absurd rfl hop
  obtain ⟨h₄, hl₅, hr₅⟩ := hlevels
  have hat := op.atLevel?_token
  have htight := op.tightness_token
  rw [h₄] at hat htight ⊢
  rw [hl₅] at hl
  rw [hr₅] at hr
  exact (hl.compared hat (Stops.some.2 (by rw [htight]; decide)) hr).imp (Stops.mono (by decide)) fun _ he => he

/-- An operator before its operand. -/
theorem leading (op : UnaryOp) (h : ReadsAt n ts Q op.level) :
    ReadsAt n (op.token :: ts) (fun e => ∃ s e', Q e' ∧ e = .lead op s e') op.level := by
  cases op with
  | not =>
    intro k hk
    obtain ⟨k, rfl⟩ : ∃ i, k = i + 1 := ⟨k - 1, by simp at hk; omega⟩
    exact (h k (by simpa using hk)).led
  | neg =>
    intro k hk
    obtain ⟨k, rfl⟩ : ∃ i, k = i + 1 := ⟨k - 1, by simp at hk; omega⟩
    exact (h k (by simpa using hk)).led

theorem attr (h : ReadsAt n ts Q 8) (x : Name) :
    ReadsAt n (ts ++ [.sign .dot, .ident x]) (fun e => ∃ e' s, Q e' ∧ e = .attr e' x s) 8 := by
  have hgrows : Grows (Reader.trailed (Reader.expression n)) (Reader.trailersFrom (Reader.expression n)) ts
    (fun _ => True) Q := h
  show Grows _ _ _ (fun _ => True) _
  refine hgrows.round (List.cons_ne_nil _ _) (fun j e he _ => ?_) trivial
  refine (Round.attr e x j).imp ?_
  rintro _ ⟨s, rfl⟩
  exact ⟨e, s, he, rfl⟩

theorem call {P : List Expr → Prop} (h : ReadsAt n ts Q 8)
    (hargs : ∀ j, us.length ≤ j → Reads (Reader.separated (.sign .rightParen) (Reader.expression n) j) us
      (· = some (.sign .rightParen)) P) :
    ReadsAt n (ts ++ .sign .leftParen :: (us ++ [.sign .rightParen]))
      (fun e => ∃ e' es s, Q e' ∧ P es ∧ e = .call e' es s) 8 := by
  have hgrows : Grows (Reader.trailed (Reader.expression n)) (Reader.trailersFrom (Reader.expression n)) ts
    (fun _ => True) Q := h
  show Grows _ _ _ (fun _ => True) _
  refine hgrows.round (List.cons_ne_nil _ _) (fun j e he hj => ?_) trivial
  refine (Round.call e j (hargs j (by simp at hj; omega))).imp ?_
  rintro _ ⟨es, s, hes, rfl⟩
  exact ⟨e, es, s, he, hes, rfl⟩

end ReadsAt

/-- Arguments are read one by one, when each of them is read. -/
theorem Reads.arguments_of_each {expr : Reader Expr} {args : List Expr}
    (h : ∀ e ∈ args, Reads expr e.spell (Stops 1) e.Same) {j : Nat}
    (hj : (commas (Expr.spellEach args)).length ≤ j) :
    Reads (Reader.separated (.sign .rightParen) expr j) (commas (Expr.spellEach args))
      (· = some (.sign .rightParen)) (List.Forall₂ Expr.Same args) := by
  rw [Expr.spellEach_eq_map] at hj ⊢
  have hne : ∀ ts ∈ args.map Expr.spell, ts ≠ [] := by
    intro ts hts
    obtain ⟨e, -, rfl⟩ := List.mem_map.1 hts
    exact e.spell_ne_nil
  have hcount := Spelling.count_le_commas hne
  rw [List.length_map] at hcount
  exact .separated h (fun e _ => e.spell_head_ne rfl) (by decide)
    ⟨Stops.some.2 (by decide), Stops.some.2 (by decide)⟩ (Nat.le_trans hcount hj)

/-! ## All expressions -/

mutual

/-- An expression is read at its own level. -/
theorem Expr.readsAt_spell : ∀ (e : Expr) {n : Nat}, e.spell.length ≤ n → ReadsAt n e.spell e.Same e.level
  | .int _ _, _, _ => .primary (fun _ _ _ => rfl) fun _ => rfl
  | .str _ _, _, _ => .primary (fun _ _ _ => rfl) fun _ => rfl
  | .bool true _, _, _ => .primary (fun _ _ _ => rfl) fun _ => rfl
  | .bool false _, _, _ => .primary (fun _ _ _ => rfl) fun _ => rfl
  | .none _, _, _ => .primary (fun _ _ _ => rfl) fun _ => rfl
  | .ident _ _, _, _ => .primary (fun _ _ _ => rfl) fun _ => rfl
  | .attr object x _, n, hn => by
    have hlen : (object.spellAt 8).length ≤ n := Nat.le_trans (by simp [Expr.spell, Expr.spellAt]) hn
    refine ((ReadsAt.spellAt object.readsAt_spell (by decide) (by decide) hlen).attr x).imp ?_
    rintro _ ⟨e', s, he, rfl⟩
    exact congrArg (Expr.attr · x .dummy) he
  | .call callee args s, n, hn => by
    have hlen : (callee.spellAt 8).length + (commas (Expr.spellEach args)).length + 2 ≤ n := by
      simp only [Expr.spell, List.length_append, List.length_cons, List.length_nil] at hn
      unfold Expr.spellAt
      omega
    have hargs : ∀ e ∈ args, Reads (Reader.expression n) e.spell (Stops 1) e.Same := by
      intro e he
      have hle := Spelling.length_le_commas
        (show e.spell ∈ Expr.spellEach args by rw [Expr.spellEach_eq_map]; exact List.mem_map_of_mem he)
      obtain ⟨n, rfl⟩ : ∃ i, n = i + 1 := ⟨n - 1, by omega⟩
      exact ((Expr.allReadsAt_spell args e he (by omega)).looser (Nat.le_refl 1) e.level_bounds.1
        (by omega)).reads (by omega)
    have hcallee : ReadsAt n (callee.spellAt 8) callee.Same 8 :=
      .spellAt callee.readsAt_spell (by decide) (Nat.le_refl 8) (by omega)
    refine (hcallee.call fun j hj => Reads.arguments_of_each hargs hj).imp ?_
    rintro _ ⟨e', es, s', he, hes, rfl⟩
    show Expr.call e'.unplaced (Expr.unplacedAll es) .dummy = _
    rw [show e'.unplaced = _ from he, Expr.unplacedAll_of_forall₂ hes]
    rfl
  | .binary op left right s, n, hn => by
    have hlen : (left.spellAt op.leftLevel).length ≤ n ∧ (right.spellAt op.rightLevel).length ≤ n := by
      simp only [Expr.spell, List.length_append, List.length_cons] at hn
      unfold Expr.spellAt
      omega
    have hb := op.level_bounds
    have hl := ReadsAt.spellAt left.readsAt_spell (by omega) (by omega) hlen.1
    have hr := (ReadsAt.spellAt right.readsAt_spell (Nat.le_add_left 1 _)
      (show op.level + 1 ≤ 8 by omega) hlen.2).reads hlen.2
    have hjoin : ∀ e, (∃ l r, left.Same l ∧ right.Same r ∧ e = .join op l r) →
        Expr.Same (.binary op left right s) e := by
      rintro _ ⟨l, r, hl, hr, rfl⟩
      show Expr.binary op l.unplaced r.unplaced .dummy = _
      rw [show l.unplaced = _ from hl, show r.unplaced = _ from hr]
      rfl
    by_cases hop : op.leftLevel = op.level
    · exact (ReadsAt.grouped op hop hl hr).imp hjoin
    · exact (ReadsAt.comparison op hop (hl.reads hlen.1) hr).imp hjoin
  | .unary op operand _, n, hn => by
    have hlen : (operand.spellAt op.level).length ≤ n := by
      simp only [Expr.spell, List.length_cons] at hn
      unfold Expr.spellAt
      omega
    have hb := op.level_bounds
    refine ((ReadsAt.spellAt operand.readsAt_spell hb.1 (by omega) hlen).leading op).imp ?_
    rintro _ ⟨s, e', he, rfl⟩
    exact congrArg (Expr.unary op · .dummy) he

theorem Expr.allReadsAt_spell : ∀ (es : List Expr), ∀ e ∈ es, ∀ {n : Nat}, e.spell.length ≤ n →
    ReadsAt n e.spell e.Same e.level
  | e :: es, e', he, n, hn => by
    rcases List.mem_cons.1 he with he | he
    · rw [he] at hn ⊢
      exact e.readsAt_spell hn
    · exact Expr.allReadsAt_spell es e' he hn

end

/-- An expression is read back from its tokens, up to the places of its nodes. -/
theorem Expr.reads_spell (e : Expr) {n : Nat} (hn : e.spell.length ≤ n) :
    Reads (Reader.expression (n + 1)) e.spell (Stops 1) e.Same :=
  ((e.readsAt_spell hn).looser (Nat.le_refl 1) e.level_bounds.1 hn).reads hn

end LivePatch
