/-
The places of nodes. Tokens stand in the text one behind the other, and every node comes from a stretch of
them: its span is merged from the spans of tokens and of nodes inside the stretch, and so it reaches from
the start of the first token to the end of the last. The stretches of the children lie inside, one behind
the other.
-/
import LivePatch.Proofs.Syntax.Sound
import LivePatch.Proofs.Token.Scanned

namespace LivePatch

open PlacedToken (lastSpan)

/-! ## Stretches of tokens -/

theorem Span.merge_of_le {a b : Span} (hstart : a.start ≤ b.start) (hstop : a.stop ≤ b.stop) :
    a.merge b = ⟨a.start, b.stop⟩ := by
  unfold merge
  rw [if_neg (UInt32.not_lt.2 hstart)]
  split
  · rfl
  · rw [UInt32.le_antisymm hstop (UInt32.not_lt.1 ‹_›)]

namespace PlacedToken

/-- From the start of the first of some tokens to the end of the last. -/
def cover : List PlacedToken → Span
  | [] => .dummy
  | p :: ps => ⟨p.span.start, (lastSpan p.span ps).stop⟩

theorem start_cover_append {ts : List PlacedToken} (h : ts ≠ []) (us : List PlacedToken) :
    (cover (ts ++ us)).start = (cover ts).start := by
  cases ts with
  | nil => exact absurd rfl h
  | cons p ps => rfl

theorem stop_cover_append (ts : List PlacedToken) {us : List PlacedToken} (h : us ≠ []) :
    (cover (ts ++ us)).stop = (cover us).stop := by
  cases us with
  | nil => exact absurd rfl h
  | cons q qs =>
    cases ts with
    | nil => rfl
    | cons p ps =>
      show (lastSpan p.span (ps ++ q :: qs)).stop = _
      rw [lastSpan_append]
      rfl

theorem lastSpan_eq_getLast (l : Span) {ts : List PlacedToken} (h : ts ≠ []) :
    lastSpan l ts = (ts.getLast h).span := by
  conv_lhs => rw [← List.dropLast_append_getLast h, lastSpan_append]
  rfl

/-- The first and the last of some tokens. -/
theorem cover_eq {ts : List PlacedToken} (h : ts ≠ []) : ∃ first last : PlacedToken,
    ts.head? = some first ∧ ts.getLast? = some last ∧ cover ts = ⟨first.span.start, last.span.stop⟩ := by
  refine ⟨ts.head h, ts.getLast h, List.head?_eq_some_head h, List.getLast?_eq_some_getLast h, ?_⟩
  rw [← lastSpan_eq_getLast .dummy h]
  cases ts with
  | nil => exact absurd rfl h
  | cons p ps => rfl

end PlacedToken

open PlacedToken (cover)

namespace Token.Ordered

variable {start stop : Nat} {ts us : List PlacedToken}

theorem left (h : Ordered start stop (ts ++ us)) : Ordered start stop ts :=
  ⟨fun p hp => h.above p (List.mem_append_left _ hp), fun p hp => h.nonempty p (List.mem_append_left _ hp),
    fun p hp => h.below p (List.mem_append_left _ hp), (List.pairwise_append.1 h.apart).1⟩

theorem right (h : Ordered start stop (ts ++ us)) : Ordered start stop us :=
  ⟨fun p hp => h.above p (List.mem_append_right _ hp), fun p hp => h.nonempty p (List.mem_append_right _ hp),
    fun p hp => h.below p (List.mem_append_right _ hp), (List.pairwise_append.1 h.apart).2.1⟩

theorem tail {p : PlacedToken} (h : Ordered start stop (p :: ts)) : Ordered start stop ts :=
  right (show Ordered start stop ([p] ++ ts) from h)

/-- One stretch ends where a later one begins, or before. -/
theorem cover_le (gap : List PlacedToken) (h : Ordered start stop (ts ++ (gap ++ us))) (hts : ts ≠ [])
    (hus : us ≠ []) : (cover ts).stop ≤ (cover us).start := by
  obtain ⟨_, q, -, hq, hts⟩ := PlacedToken.cover_eq hts
  obtain ⟨r, _, hr, -, hus⟩ := PlacedToken.cover_eq hus
  rw [hts, hus]
  exact (List.pairwise_append.1 h.apart).2.2 q (List.mem_of_getLast? hq) r
    (List.mem_append_right _ (List.mem_of_head? hr))

theorem cover_lt (h : Ordered start stop ts) (hts : ts ≠ []) : (cover ts).start < (cover ts).stop := by
  cases ts with
  | nil => exact absurd rfl hts
  | cons p ps =>
    have hp := h.nonempty p (List.mem_cons_self ..)
    cases ps with
    | nil => exact hp
    | cons q qs =>
      obtain ⟨_, last, -, hlast, he⟩ := PlacedToken.cover_eq (List.cons_ne_nil q qs)
      have hq := h.nonempty last (List.mem_cons_of_mem _ (List.mem_of_getLast? hlast))
      have hpq := (List.pairwise_cons.1 h.apart).1 last (List.mem_of_getLast? hlast)
      have hstop := PlacedToken.stop_cover_append [p] (List.cons_ne_nil q qs)
      rw [show (cover (p :: q :: qs)).stop = _ from hstop, he]
      exact UInt32.lt_trans (UInt32.lt_of_lt_of_le hp hpq) hq

/-- The spans of two stretches are merged to that of all tokens from the first to the last. -/
theorem merge_cover (ts gap : List PlacedToken) (h : Ordered start stop (ts ++ (gap ++ us))) (hts : ts ≠ [])
    (hus : us ≠ []) : (cover ts).merge (cover us) = cover (ts ++ (gap ++ us)) := by
  have hapart := cover_le gap h hts hus
  have hleft := h.left.cover_lt hts
  have hright := h.right.right.cover_lt hus
  rw [Span.merge_of_le (UInt32.le_of_lt (UInt32.lt_of_lt_of_le hleft hapart))
    (UInt32.le_of_lt (UInt32.lt_of_le_of_lt hapart hright)),
    ← PlacedToken.start_cover_append hts (gap ++ us), ← PlacedToken.stop_cover_append gap hus,
    ← PlacedToken.stop_cover_append ts (List.append_ne_nil_of_right_ne_nil gap hus)]

/-- The same where the second stretch is known by its last token. -/
theorem merge_lastSpan {p : PlacedToken} {gap : List PlacedToken} (h : Ordered start stop (p :: (gap ++ us)))
    (hus : us ≠ []) (l : Span) :
    p.span.merge (lastSpan l us) = cover (p :: (gap ++ us)) := by
  obtain ⟨init, q, rfl⟩ : ∃ init q, us = init ++ [q] := ⟨_, _, (List.dropLast_append_getLast hus).symm⟩
  rw [← List.append_assoc] at h ⊢
  rw [PlacedToken.lastSpan_append]
  exact merge_cover [p] _ h (List.cons_ne_nil _ _) (List.cons_ne_nil _ _)

/-- A stretch of some tokens lies inside. -/
theorem cover_within {before after : List PlacedToken} (h : Ordered start stop (before ++ (ts ++ after)))
    (hts : ts ≠ []) : (cover (before ++ (ts ++ after))).start ≤ (cover ts).start ∧
      (cover ts).stop ≤ (cover (before ++ (ts ++ after))).stop := by
  have hrest := List.append_ne_nil_of_left_ne_nil hts after
  constructor
  · rw [← PlacedToken.start_cover_append hts after]
    by_cases hbefore : before = []
    · subst hbefore
      exact UInt32.le_refl _
    · rw [PlacedToken.start_cover_append hbefore]
      exact UInt32.le_trans (UInt32.le_of_lt (h.left.cover_lt hbefore)) (cover_le [] h hbefore hrest)
  · rw [PlacedToken.stop_cover_append before hrest]
    by_cases hafter : after = []
    · subst hafter
      rw [List.append_nil]
      exact UInt32.le_refl _
    · rw [PlacedToken.stop_cover_append ts hafter]
      exact UInt32.le_trans (cover_le [] h.right hts hafter)
        (UInt32.le_of_lt (h.right.right.cover_lt hafter))

end Token.Ordered

/-! ## Nodes -/

/-- A node of a tree. -/
inductive TreeNode where
  | expr (e : Expr)
  | stmt (s : Stmt)

namespace TreeNode

def span : TreeNode → Span
  | expr e => e.span
  | stmt s => s.span

/-- The nodes right below a node, from left to right. -/
def children : TreeNode → List TreeNode
  | expr (.int ..) | expr (.str ..) | expr (.bool ..) | expr (.none _) | expr (.ident ..) => []
  | expr (.attr object _ _) => [expr object]
  | expr (.call callee args _) => expr callee :: args.map expr
  | expr (.binary _ left right _) => [expr left, expr right]
  | expr (.unary _ operand _) => [expr operand]
  | stmt (.bind _ value _) | stmt (.raise value _) | stmt (.expr value) => [expr value]
  | stmt (.assign target value _) => [expr target, expr value]
  | stmt (.function _ params body _ _) => (params.filterMap (·.default)).map expr ++ body.map stmt
  | stmt (.classDef _ bases body _ _) => bases.map expr ++ body.map stmt
  | stmt (.leave value _) => value.toList.map expr
  | stmt (.branch cond whenTrue whenFalse _) => expr cond :: (whenTrue.map stmt ++ whenFalse.map stmt)

/-- The node comes from the tokens. The return that a short body stands for comes from those of its
expression. -/
def From (ts : List PlacedToken) : TreeNode → Prop
  | expr e => Expr.From ts e
  | stmt s => Part.From .statement ts [s] ∨ ∃ e, s = .leave (some e) e.span ∧ Expr.From ts e

/-- The keyword of a definition. -/
def definition? : TreeNode → Option Keyword
  | stmt (.function ..) => some .function
  | stmt (.classDef ..) => some .classDef
  | _ => none

/-- The nodes come from stretches of the tokens, one behind the other. -/
inductive AllWithin : List PlacedToken → List TreeNode → Prop
  | nil (ts : List PlacedToken) : AllWithin ts []
  | cons (gap : List PlacedToken) {ts us : List PlacedToken} {n : TreeNode} {ns : List TreeNode} (hn : From ts n)
      (hns : AllWithin us ns) : AllWithin (gap ++ (ts ++ us)) (n :: ns)

theorem From.ne_nil {ts : List PlacedToken} {n : TreeNode} (h : From ts n) : ts ≠ [] := by
  cases n with
  | expr e => exact Expr.From.ne_nil h
  | stmt s =>
    obtain h | ⟨e, -, h⟩ := h
    · exact h.ne_nil_of_statement
    · exact h.ne_nil

namespace AllWithin

variable {ts us : List PlacedToken} {n : TreeNode} {ns ms : List TreeNode}

theorem single (h : From ts n) : AllWithin ts [n] := by
  simpa using AllWithin.cons [] h (.nil [])

theorem expr {e : Expr} (h : Expr.From ts e) : AllWithin ts [.expr e] := single h

theorem stmt {s : Stmt} (h : Part.From .statement ts [s]) : AllWithin ts [.stmt s] := single (.inl h)

theorem behind (gap : List PlacedToken) (h : AllWithin ts ns) : AllWithin (gap ++ ts) ns := by
  cases h with
  | nil => exact .nil _
  | cons gap' hn hns =>
    rw [← List.append_assoc]
    exact .cons (gap ++ gap') hn hns

theorem append (h : AllWithin ts ns) (h' : AllWithin us ms) : AllWithin (ts ++ us) (ns ++ ms) := by
  induction h with
  | nil ts => exact h'.behind ts
  | cons gap hn _ ih =>
    rw [List.append_assoc, List.append_assoc]
    exact .cons gap hn ih

theorem before (h : AllWithin ts ns) (gap : List PlacedToken) : AllWithin (ts ++ gap) ns := by
  simpa using h.append (.nil gap)

/-- Each of the nodes comes from a stretch of the tokens. -/
theorem exists_of_mem (h : AllWithin ts ns) (hn : n ∈ ns) :
    ∃ before us after, ts = before ++ (us ++ after) ∧ From us n := by
  induction h with
  | nil => cases hn
  | @cons gap ts us m ns hm hns ih =>
    rcases List.mem_cons.1 hn with rfl | hn
    · exact ⟨gap, ts, us, rfl, hm⟩
    · obtain ⟨before, vs, after, rfl, hv⟩ := ih hn
      exact ⟨gap ++ (ts ++ before), vs, after, by simp, hv⟩

end AllWithin

end TreeNode

/-! ## Children come from stretches -/

theorem Expr.children_withSpan (s : Span) (e : Expr) :
    (TreeNode.expr (e.withSpan s)).children = (TreeNode.expr e).children := by
  cases e <;> rfl

mutual

theorem Expr.From.children : ∀ {ts : List PlacedToken} {e : Expr}, Expr.From ts e →
    TreeNode.AllWithin ts (TreeNode.expr e).children
  | _, _, .leaf he => by
    refine Expr.leaf?_cases he ?_ ?_ ?_ ?_ ?_ ?_ <;> intros <;> exact .nil _
  | _, _, @Expr.From.bracketed opening closing _ _ _ he _ => by
    rw [Expr.children_withSpan]
    exact (he.children.before [closing]).behind [opening]
  | _, _, .attr he _ _ => (TreeNode.AllWithin.expr he).before _
  | _, _, @Expr.From.call opening closing _ _ _ _ he _ hes _ =>
    .cons [] he ((hes.nodes.before [closing]).behind [opening])
  | _, _, @Expr.From.binary sign _ _ _ _ _ hl _ hr => .cons [] hl ((TreeNode.AllWithin.expr hr).behind [sign])
  | _, _, @Expr.From.unary sign _ _ _ _ he => (TreeNode.AllWithin.expr he).behind [sign]

theorem Expr.AllFrom.nodes : ∀ {ts : List PlacedToken} {es : List Expr}, Expr.AllFrom ts es →
    TreeNode.AllWithin ts (es.map .expr)
  | _, _, .nil => .nil _
  | _, _, .last he => .single he
  | _, _, @Expr.AllFrom.cons comma _ _ _ _ he _ hes => .cons [] he (hes.nodes.behind [comma])

end

theorem Expr.BasesFrom.nodes {ts : List PlacedToken} {es : List Expr} (h : Expr.BasesFrom ts es) :
    TreeNode.AllWithin ts (es.map .expr) := by
  cases h with
  | none => exact .nil _
  | @some opening closing _ _ _ hes _ => exact (hes.nodes.before [closing]).behind [opening]

theorem Param.From.nodes {ts : List PlacedToken} {p : Param} (h : Param.From ts p) :
    TreeNode.AllWithin ts (([p].filterMap (·.default)).map .expr) := by
  cases h with
  | plain => exact .nil _
  | @defaulted name equal _ _ _ _ _ he => exact (TreeNode.AllWithin.expr he).behind [name, equal]

theorem Param.AllFrom.nodes {ts : List PlacedToken} {ps : List Param} (h : Param.AllFrom ts ps) :
    TreeNode.AllWithin ts ((ps.filterMap (·.default)).map .expr) := by
  induction h with
  | nil => exact .nil _
  | last hp => exact hp.nodes
  | @cons comma ts us p ps hp _ _ ih =>
    rw [show p :: ps = [p] ++ ps from rfl, List.filterMap_append, List.map_append]
    exact hp.nodes.append (ih.behind [comma])

/-- A part of the kind of a statement is a single one. -/
theorem Part.From.eq_singleton {ts : List PlacedToken} {ss : List Stmt} (h : Part.From .statement ts ss) :
    ∃ s, ss = [s] := by
  cases h <;> exact ⟨_, rfl⟩

/-- The statements of a part come from stretches of its tokens. -/
theorem Part.From.nodes : ∀ {k : Part} {ts : List PlacedToken} {ss : List Stmt}, Part.From k ts ss →
    TreeNode.AllWithin ts (ss.map .stmt)
  | _, _, _, @Part.From.item ds _ es _ _ hs _ => ((TreeNode.AllWithin.stmt hs).before es).behind ds
  | _, _, _, .nil | _, _, _, .noOtherwise => .nil _
  | _, _, _, .cons hs hss => hs.nodes.append hss.nodes
  | _, _, _, @Part.From.block opening closing _ _ _ hss _ =>
    (hss.nodes.before [closing]).behind [opening]
  | _, _, _, .body hss => hss.nodes
  | _, _, _, @Part.From.shortBody equal _ _ _ he =>
    (TreeNode.AllWithin.single (n := .stmt _) (.inr ⟨_, rfl, he⟩)).behind [equal]
  | _, _, _, @Part.From.otherwise word _ _ _ hss => hss.nodes.behind [word]
  | _, _, _, @Part.From.chained word _ _ _ hs _ => hs.nodes.behind [word]
  | .statement, _, _, h => by
    obtain ⟨s, rfl⟩ := h.eq_singleton
    exact .stmt h

/-- The children of a node come from stretches of its tokens. -/
theorem TreeNode.From.children {ts : List PlacedToken} {n : TreeNode} (h : From ts n) :
    AllWithin ts n.children := by
  cases n with
  | expr e => exact Expr.From.children h
  | stmt s =>
    obtain h | ⟨e, rfl, h⟩ := h
    · cases h with
      | @bind start name equal _ _ _ _ _ _ he => exact (AllWithin.expr he).behind [start, name, equal]
      | @assign equal _ _ _ _ ht _ _ hv => exact .cons [] ht ((AllWithin.expr hv).behind [equal])
      | expr he => exact .single he
      | leaveNothing => exact .nil _
      | @leave start _ _ _ he | @raise start _ _ _ he => exact (AllWithin.expr he).behind [start]
      | @branch start _ _ _ _ _ _ _ hc ht hf =>
        exact .cons [start] hc (ht.nodes.append hf.nodes)
      | @function start name opening closing _ _ _ _ _ _ _ _ _ hps _ _ hbody =>
        exact (hps.nodes.append (hbody.nodes.behind [closing])).behind [start, name, opening]
      | @classDef start name opening closing _ _ _ _ _ _ _ _ hes _ hbody _ _ =>
        exact (hes.nodes.append ((hbody.nodes.before [closing]).behind [opening])).behind [start, name]
    · exact .single h

/-! ## Spans cover the tokens -/

theorem Expr.From.span_eq {start stop : Nat} : ∀ {ts : List PlacedToken} {e : Expr}, Expr.From ts e →
    Token.Ordered start stop ts → e.span = cover ts
  | _, _, .leaf he, _ => by
    refine Expr.leaf?_cases he ?_ ?_ ?_ ?_ ?_ ?_ <;> intros <;> rfl
  | _, _, @Expr.From.bracketed opening _ _ _ _ he _, ho => by
    rw [Expr.span_withSpan]
    exact Token.Ordered.merge_cover [opening] _ ho (List.cons_ne_nil _ _) (List.cons_ne_nil _ _)
  | _, _, @Expr.From.attr dot _ _ _ _ he _ _, ho => by
    show Span.merge _ _ = _
    rw [he.span_eq ho.left]
    exact Token.Ordered.merge_cover _ [dot] ho he.ne_nil (List.cons_ne_nil _ _)
  | _, _, @Expr.From.call opening _ _ us _ _ he _ hes _, ho => by
    show Span.merge _ _ = _
    rw [he.span_eq ho.left]
    exact Token.Ordered.merge_cover _ (opening :: us) ho he.ne_nil (List.cons_ne_nil _ _)
  | _, _, @Expr.From.binary sign _ _ _ _ _ hl _ hr, ho => by
    show Span.merge _ _ = _
    rw [hl.span_eq ho.left, hr.span_eq ho.right.tail]
    exact Token.Ordered.merge_cover _ [sign] ho hl.ne_nil hr.ne_nil
  | _, _, @Expr.From.unary sign _ _ _ _ he, ho => by
    show Span.merge _ _ = _
    rw [he.span_eq ho.tail]
    exact Token.Ordered.merge_cover [sign] [] ho (List.cons_ne_nil _ _) he.ne_nil

theorem Part.From.span_eq {start stop : Nat} {ts : List PlacedToken} {s : Stmt}
    (h : Part.From .statement ts [s]) (ho : Token.Ordered start stop ts) : s.span = cover ts := by
  cases h with
  | @bind begin name equal _ _ _ _ _ _ he =>
    show Span.merge _ _ = _
    rw [he.span_eq ho.tail.tail.tail]
    exact Token.Ordered.merge_cover [begin] [name, equal] ho (List.cons_ne_nil _ _) he.ne_nil
  | @assign equal _ _ _ _ ht _ _ hv =>
    show Span.merge _ _ = _
    rw [ht.span_eq ho.left, hv.span_eq ho.right.tail]
    exact Token.Ordered.merge_cover _ [equal] ho ht.ne_nil hv.ne_nil
  | expr he => exact he.span_eq ho
  | leaveNothing => rfl
  | @leave begin _ _ _ he | @raise begin _ _ _ he =>
    show Span.merge _ _ = _
    rw [he.span_eq ho.tail]
    exact Token.Ordered.merge_cover [begin] [] ho (List.cons_ne_nil _ _) he.ne_nil
  | @branch _ _ _ vs _ _ _ _ _ ht _ =>
    exact Token.Ordered.merge_lastSpan ho (List.append_ne_nil_of_left_ne_nil ht.ne_nil_of_block vs) _
  | @function begin name opening closing ts us _ _ _ _ _ _ _ _ _ _ hbody =>
    have hsplit : name :: opening :: (ts ++ closing :: us) = name :: opening :: (ts ++ [closing]) ++ us := by
      simp
    rw [hsplit] at ho ⊢
    exact ho.merge_lastSpan hbody.ne_nil_of_body _
  | @classDef begin name opening closing ts us =>
    have hsplit : name :: (ts ++ opening :: (us ++ [closing])) = name :: (ts ++ opening :: us) ++ [closing] := by
      simp
    rw [hsplit] at ho ⊢
    exact ho.merge_lastSpan (List.cons_ne_nil _ _) closing.span

theorem TreeNode.From.span_eq {start stop : Nat} {ts : List PlacedToken} {n : TreeNode} (h : From ts n)
    (ho : Token.Ordered start stop ts) : n.span = cover ts := by
  cases n with
  | expr e => exact Expr.From.span_eq h ho
  | stmt s =>
    obtain h | ⟨e, rfl, h⟩ := h
    · exact h.span_eq ho
    · exact h.span_eq ho

namespace TreeNode

variable {start stop : Nat} {ts : List PlacedToken} {n : TreeNode} {ns : List TreeNode}

/-- Nodes from stretches one behind the other do not overlap. -/
theorem AllWithin.pairwise (h : AllWithin ts ns) (ho : Token.Ordered start stop ts) :
    ns.Pairwise fun a b => a.span.stop ≤ b.span.start := by
  induction h with
  | nil => exact .nil
  | cons gap hn hns ih =>
    refine List.pairwise_cons.2 ⟨fun m hm => ?_, ih ho.right.right⟩
    obtain ⟨before, us, after, rfl, hfrom⟩ := hns.exists_of_mem hm
    rw [hn.span_eq ho.right.left, hfrom.span_eq ho.right.right.right.left]
    have ho := ho.right
    rw [← List.append_assoc before, ← List.append_assoc] at ho
    exact ho.left.cover_le _ hn.ne_nil hfrom.ne_nil

/-- A node from a stretch lies inside. -/
theorem AllWithin.within (h : AllWithin ts ns) (ho : Token.Ordered start stop ts) (hn : n ∈ ns) :
    (cover ts).start ≤ n.span.start ∧ n.span.stop ≤ (cover ts).stop := by
  obtain ⟨before, us, after, rfl, hfrom⟩ := h.exists_of_mem hn
  rw [hfrom.span_eq ho.right.left]
  exact ho.cover_within hfrom.ne_nil

/-- A definition begins with its keyword. -/
theorem From.definition (h : From ts n) {k : Keyword} (hk : k ∈ n.definition?) :
    ∃ p ∈ ts.head?, p.token = .keyword k := by
  cases n with
  | expr e => cases hk
  | stmt s =>
    obtain h | ⟨e, rfl, -⟩ := h
    · cases h with
      | function _ hstart | classDef _ hstart =>
        cases hk
        exact ⟨_, rfl, hstart⟩
      | _ => cases hk
    · cases hk

end TreeNode

/-! ## Units -/

/-- The nodes of a unit, at every depth. -/
inductive CodeUnit.HasNode (u : CodeUnit) : TreeNode → Prop
  | top {s : Stmt} (hs : s ∈ u.body) : HasNode u (.stmt s)
  | child {n m : TreeNode} (hn : HasNode u n) (hm : m ∈ n.children) : HasNode u m

namespace CodeUnit

/-- Every node of a unit comes from a stretch of the tokens of the unit, however deep it stands. -/
theorem HasNode.exists_from {tokens : List PlacedToken} {u : CodeUnit} (hu : Part.From .items tokens u.body)
    {n : TreeNode} (hn : u.HasNode n) : ∃ before ts after, tokens = before ++ (ts ++ after) ∧ n.From ts := by
  induction hn with
  | top hs => exact hu.nodes.exists_of_mem (List.mem_map_of_mem hs)
  | child _ hm ih =>
    obtain ⟨before, ts, after, rfl, hfrom⟩ := ih
    obtain ⟨before', us, after', rfl, hchild⟩ := hfrom.children.exists_of_mem hm
    exact ⟨before ++ before', us, after' ++ after, by simp, hchild⟩

/-- In a text with fewer bytes than a 32-bit offset can count, the span of every node of the unit reaches
from the start of the first of the tokens that it comes from to the end of the last; a definition comes from
tokens that begin with its keyword. The span is not empty and lies in the text, the children lie inside one
behind the other, and the statements of the unit stand one behind the other. -/
theorem spans_of_parse {source origin : String} {u : CodeUnit} (hsize : source.utf8ByteSize < UInt32.size)
    (h : parse source origin = .ok u) :
    ∃ tokens, Token.scan source = .ok tokens ∧
      (∀ n, u.HasNode n →
        (∃ before ts after first last, tokens = before ++ (ts ++ after) ∧ n.From ts ∧
          ts.head? = some first ∧ ts.getLast? = some last ∧
          n.span = ⟨first.span.start, last.span.stop⟩ ∧
          ∀ k ∈ n.definition?, first.token = .keyword k) ∧
        n.span.start < n.span.stop ∧ n.span.stop.toNat ≤ source.utf8ByteSize ∧
        (∀ m ∈ n.children, n.span.start ≤ m.span.start ∧ m.span.stop ≤ n.span.stop) ∧
        n.children.Pairwise fun a b => a.span.stop ≤ b.span.start) ∧
      u.body.Pairwise fun a b => a.span.stop ≤ b.span.start := by
  obtain ⟨tokens, hscan, hbody⟩ := from_of_parse h
  have hordered := (Token.scanned_of_scan hscan).ordered
    (by rw [Nat.zero_add, Token.byteLength_toList]; exact hsize)
  rw [Nat.zero_add, Token.byteLength_toList] at hordered
  refine ⟨tokens, hscan, fun n hn => ?_, List.pairwise_map.1 (hbody.nodes.pairwise hordered)⟩
  obtain ⟨before, ts, after, rfl, hfrom⟩ := hn.exists_from hbody
  have ho := hordered.right.left
  have hspan := hfrom.span_eq ho
  obtain ⟨first, last, hfirst, hlast, hcover⟩ := PlacedToken.cover_eq hfrom.ne_nil
  refine ⟨⟨before, ts, after, first, last, rfl, hfrom, hfirst, hlast, hspan.trans hcover, fun k hk => ?_⟩,
    ?_, ?_, ?_, hfrom.children.pairwise ho⟩
  · obtain ⟨p, hp, hkeyword⟩ := hfrom.definition hk
    rw [hfirst] at hp
    cases hp
    exact hkeyword
  · rw [hspan]
    exact ho.cover_lt hfrom.ne_nil
  · rw [hspan, hcover]
    exact ho.below last (List.mem_of_getLast? hlast)
  · rw [hspan]
    exact fun m hm => hfrom.children.within ho hm

/-- A unit with an operation in brackets. -/
theorem spans_of_parse_total :
    "total = (price + 1) * count".utf8ByteSize < UInt32.size ∧
      ∃ u, parse "total = (price + 1) * count" "total" = .ok u ∧
        ∀ n, u.HasNode n → n.span.start < n.span.stop ∧ n.span.stop.toNat ≤ 27 ∧
          ∀ m ∈ n.children, n.span.start ≤ m.span.start ∧ m.span.stop ≤ n.span.stop := by
  have hsize : "total = (price + 1) * count".utf8ByteSize < UInt32.size := by decide
  have hparse : (parse "total = (price + 1) * count" "total").toBool = true := by decide +kernel
  obtain ⟨u, hu⟩ := except_ok_of_toBool hparse
  obtain ⟨tokens, -, hnodes, -⟩ := spans_of_parse hsize hu
  exact ⟨hsize, u, hu, fun n hn => ⟨(hnodes n hn).2.1, (hnodes n hn).2.2.1, (hnodes n hn).2.2.2.1⟩⟩

end CodeUnit

end LivePatch
