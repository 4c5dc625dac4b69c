/-
The compiled form is canonical. Reading accepts a unit exactly when the bytes begin with what is written
of it, so that every unit whose lengths can be written has one compiled form, no compiled form begins
another, and a form that is cut short is refused.
-/
import LivePatch.Proofs.Compiled.Field

namespace LivePatch

namespace Compiled

/-! ## Trees that can be written -/

/-- Expressions in which the length of every text and every list can be written. -/
inductive ExprFits : Expr → Prop
  | int (n : Int64) (s : Span) : ExprFits (.int n s)
  | str {text : String} (ht : TextFits text) (s : Span) : ExprFits (.str text s)
  | bool (b : Bool) (s : Span) : ExprFits (.bool b s)
  | none (s : Span) : ExprFits (.none s)
  | ident {x : Name} (hx : TextFits x) (s : Span) : ExprFits (.ident x s)
  | attr {object : Expr} {x : Name} (ho : ExprFits object) (hx : TextFits x) (s : Span) :
      ExprFits (.attr object x s)
  | call {callee : Expr} {args : List Expr} (hc : ExprFits callee) (hl : args.length < 2 ^ 64)
      (ha : ∀ e ∈ args, ExprFits e) (s : Span) : ExprFits (.call callee args s)
  | binary (op : BinaryOp) {left right : Expr} (hl : ExprFits left) (hr : ExprFits right) (s : Span) :
      ExprFits (.binary op left right s)
  | unary (op : UnaryOp) {operand : Expr} (ho : ExprFits operand) (s : Span) :
      ExprFits (.unary op operand s)

structure ParamFits (p : Param) : Prop where
  name : TextFits p.name
  default : ∀ e, p.default = some e → ExprFits e

/-- Statements in which the length of every text and every list can be written. -/
inductive StmtFits : Stmt → Prop
  | bind {x : Name} {value : Expr} (hx : TextFits x) (hv : ExprFits value) (s : Span) :
      StmtFits (.bind x value s)
  | assign {target value : Expr} (ht : ExprFits target) (hv : ExprFits value) (s : Span) :
      StmtFits (.assign target value s)
  | function {x : Name} {params : List Param} {body : List Stmt} {doc : Option String}
      (hx : TextFits x) (hpl : params.length < 2 ^ 64) (hp : ∀ p ∈ params, ParamFits p)
      (hbl : body.length < 2 ^ 64) (hb : ∀ s ∈ body, StmtFits s) (hd : ∀ d, doc = some d → TextFits d)
      (s : Span) : StmtFits (.function x params body doc s)
  | classDef {x : Name} {bases : List Expr} {body : List Stmt} {doc : Option String}
      (hx : TextFits x) (hcl : bases.length < 2 ^ 64) (hc : ∀ e ∈ bases, ExprFits e)
      (hbl : body.length < 2 ^ 64) (hb : ∀ s ∈ body, StmtFits s) (hd : ∀ d, doc = some d → TextFits d)
      (s : Span) : StmtFits (.classDef x bases body doc s)
  | leave {value : Option Expr} (hv : ∀ e, value = some e → ExprFits e) (s : Span) :
      StmtFits (.leave value s)
  | raise {value : Expr} (hv : ExprFits value) (s : Span) : StmtFits (.raise value s)
  | branch {cond : Expr} {whenTrue whenFalse : List Stmt} (hc : ExprFits cond)
      (htl : whenTrue.length < 2 ^ 64) (ht : ∀ s ∈ whenTrue, StmtFits s)
      (hfl : whenFalse.length < 2 ^ 64) (hf : ∀ s ∈ whenFalse, StmtFits s) (s : Span) :
      StmtFits (.branch cond whenTrue whenFalse s)
  | expr {value : Expr} (hv : ExprFits value) : StmtFits (.expr value)

/-- Units in which the length of every text and every list can be written. -/
structure UnitFits (u : CodeUnit) : Prop where
  origin : TextFits u.origin
  length : u.body.length < 2 ^ 64
  body : ∀ s ∈ u.body, StmtFits s

/-! ## Expressions -/

theorem length_tagBytes (tag : Nat) : (tagBytes tag).length = 4 := length_wordBytes 4 tag

theorem exprsBytes_eq (es : List Expr) : exprsBytes es = es.flatMap exprBytes := by
  induction es with
  | nil => rfl
  | cons e es ih => rw [exprsBytes, ih, List.flatMap_cons]

/-- The arguments of a call are a list like any other. -/
theorem exprBytes_call (callee : Expr) (args : List Expr) (s : Span) :
    exprBytes (.call callee args s) =
      tagBytes 6 ++ exprBytes callee ++ listBytes exprBytes args ++ spanBytes s := by
  rw [exprBytes, exprsBytes_eq]
  rfl

section Expressions

variable {n : Nat} (ih : Reads n (Decoder.expr n) ExprFits exprBytes)

include ih

theorem expr_sound {bytes rest : List UInt8} {e : Expr}
    (h : Decoder.expr (n + 1) bytes = .ok e rest) : ExprFits e ∧ bytes = exprBytes e ++ rest := by
  rw [Decoder.expr] at h
  obtain ⟨tag, mid, htag, rfl, h₁⟩ := (tag_reads n (by decide)).front h
  clear h
  interval_cases tag
  · obtain ⟨k, mid, -, rfl, h₂⟩ := (int_reads n).front h₁
    obtain ⟨s, mid, -, rfl, h₃⟩ := (span_reads n).front h₂
    cases h₃
    exact ⟨.int k s, by simp only [exprBytes, List.append_assoc]⟩
  · obtain ⟨text, mid, ht, rfl, h₂⟩ := (text_reads n).front h₁
    obtain ⟨s, mid, -, rfl, h₃⟩ := (span_reads n).front h₂
    cases h₃
    exact ⟨.str ht s, by simp only [exprBytes, List.append_assoc]⟩
  · obtain ⟨b, mid, -, rfl, h₂⟩ := (bool_reads n).front h₁
    obtain ⟨s, mid, -, rfl, h₃⟩ := (span_reads n).front h₂
    cases h₃
    exact ⟨.bool b s, by simp only [exprBytes, List.append_assoc]⟩
  · obtain ⟨s, mid, -, rfl, h₂⟩ := (span_reads n).front h₁
    cases h₂
    exact ⟨.none s, by simp only [exprBytes, List.append_assoc]⟩
  · obtain ⟨x, mid, hx, rfl, h₂⟩ := (text_reads n).front h₁
    obtain ⟨s, mid, -, rfl, h₃⟩ := (span_reads n).front h₂
    cases h₃
    exact ⟨.ident hx s, by simp only [exprBytes, List.append_assoc]⟩
  · obtain ⟨object, mid, ho, rfl, h₂⟩ := ih.front h₁
    obtain ⟨x, mid, hx, rfl, h₃⟩ := (text_reads n).front h₂
    obtain ⟨s, mid, -, rfl, h₄⟩ := (span_reads n).front h₃
    cases h₄
    exact ⟨.attr ho hx s, by simp only [exprBytes, List.append_assoc]⟩
  · obtain ⟨callee, mid, hc, rfl, h₂⟩ := ih.front h₁
    obtain ⟨args, mid, ha, rfl, h₃⟩ := (list_reads ih).front h₂
    obtain ⟨s, mid, -, rfl, h₄⟩ := (span_reads n).front h₃
    cases h₄
    exact ⟨.call hc ha.1 ha.2 s, by simp only [exprBytes_call, List.append_assoc]⟩
  · obtain ⟨op, mid, -, rfl, h₂⟩ := (binaryOp_reads n).front h₁
    obtain ⟨left, mid, hl, rfl, h₃⟩ := ih.front h₂
    obtain ⟨right, mid, hr, rfl, h₄⟩ := ih.front h₃
    obtain ⟨s, mid, -, rfl, h₅⟩ := (span_reads n).front h₄
    cases h₅
    exact ⟨.binary op hl hr s, by simp only [exprBytes, List.append_assoc]⟩
  · obtain ⟨op, mid, -, rfl, h₂⟩ := (unaryOp_reads n).front h₁
    obtain ⟨operand, mid, ho, rfl, h₃⟩ := ih.front h₂
    obtain ⟨s, mid, -, rfl, h₄⟩ := (span_reads n).front h₃
    cases h₄
    exact ⟨.unary op ho s, by simp only [exprBytes, List.append_assoc]⟩

/-- The number of the choice takes up four bytes, so that the parts of an expression are read within the
smaller bound. -/
theorem expr_complete {e : Expr} (he : ExprFits e) (hn : (exprBytes e).length ≤ n + 1)
    (rest : List UInt8) : Decoder.expr (n + 1) (exprBytes e ++ rest) = .ok e rest := by
  rw [Decoder.expr]
  have htag (tag : Nat) (ht : tag < 9) {f : Nat → Decoder Expr} (behind : List UInt8) :
      (Decoder.tag 9 >>= f) (tagBytes tag ++ behind) = f tag behind :=
    (tag_reads 4 (by decide)).behind ht (Nat.le_of_eq (length_tagBytes tag)) behind f
  cases he with
  | int k s =>
    simp only [exprBytes, List.length_append, length_tagBytes] at hn
    simp only [exprBytes, List.append_assoc, htag 0 (by decide)]
    rw [(int_reads n).behind trivial (by omega), (span_reads n).behind trivial (by omega)]
    rfl
  | @str text ht s =>
    simp only [exprBytes, List.length_append, length_tagBytes] at hn
    simp only [exprBytes, List.append_assoc, htag 1 (by decide)]
    rw [(text_reads n).behind ht (by omega), (span_reads n).behind trivial (by omega)]
    rfl
  | bool b s =>
    simp only [exprBytes, List.length_append, length_tagBytes] at hn
    simp only [exprBytes, List.append_assoc, htag 2 (by decide)]
    rw [(bool_reads n).behind trivial (by omega), (span_reads n).behind trivial (by omega)]
    rfl
  | none s =>
    simp only [exprBytes, List.length_append, length_tagBytes] at hn
    simp only [exprBytes, List.append_assoc, htag 3 (by decide)]
    rw [(span_reads n).behind trivial (by omega)]
    rfl
  | @ident x hx s =>
    simp only [exprBytes, List.length_append, length_tagBytes] at hn
    simp only [exprBytes, List.append_assoc, htag 4 (by decide)]
    rw [(text_reads n).behind hx (by omega), (span_reads n).behind trivial (by omega)]
    rfl
  | @attr object x ho hx s =>
    simp only [exprBytes, List.length_append, length_tagBytes] at hn
    simp only [exprBytes, List.append_assoc, htag 5 (by decide)]
    rw [ih.behind ho (by omega), (text_reads n).behind hx (by omega),
      (span_reads n).behind trivial (by omega)]
    rfl
  | @call callee args hc hl ha s =>
    simp only [exprBytes_call, List.length_append, length_tagBytes] at hn
    simp only [exprBytes_call, List.append_assoc, htag 6 (by decide)]
    rw [ih.behind hc (by omega), (list_reads ih).behind ⟨hl, ha⟩ (by omega),
      (span_reads n).behind trivial (by omega)]
    rfl
  | @binary op left right hl hr s =>
    simp only [exprBytes, List.length_append, length_tagBytes] at hn
    simp only [exprBytes, List.append_assoc, htag 7 (by decide)]
    rw [(binaryOp_reads 4).behind trivial (Nat.le_of_eq (length_tagBytes _)), ih.behind hl (by omega),
      ih.behind hr (by omega), (span_reads n).behind trivial (by omega)]
    rfl
  | @unary op operand ho s =>
    simp only [exprBytes, List.length_append, length_tagBytes] at hn
    simp only [exprBytes, List.append_assoc, htag 8 (by decide)]
    rw [(unaryOp_reads 4).behind trivial (Nat.le_of_eq (length_tagBytes _)), ih.behind ho (by omega),
      (span_reads n).behind trivial (by omega)]
    rfl

end Expressions

/-- By induction on the nesting: both directions need the parts of an expression to be read. -/
theorem expr_reads (n : Nat) : Reads n (Decoder.expr n) ExprFits exprBytes := by
  induction n with
  | zero =>
    refine ⟨(fun h => by cases h), fun {e} _ hn => ?_⟩
    cases e <;> simp [exprBytes, length_tagBytes] at hn
  | succ n ih => exact ⟨expr_sound ih, fun he hn => expr_complete ih he hn⟩

theorem param_reads (n : Nat) : Reads n (Decoder.param n) ParamFits paramBytes := by
  constructor
  · intro bytes rest p h
    obtain ⟨x, mid, hx, rfl, h₁⟩ := (text_reads n).front h
    obtain ⟨default, mid, hd, rfl, h₂⟩ := (option_reads (expr_reads n)).front h₁
    cases h₂
    exact ⟨⟨hx, hd⟩, by simp only [paramBytes, List.append_assoc]⟩
  · intro p hp hn rest
    simp only [paramBytes, List.length_append] at hn
    simp only [paramBytes, List.append_assoc]
    unfold Decoder.param
    rw [(text_reads n).behind hp.name (by omega),
      (option_reads (expr_reads n)).behind hp.default (by omega)]
    rfl

/-! ## Statements -/

theorem stmtsBytes_eq (ss : List Stmt) : stmtsBytes ss = ss.flatMap stmtBytes := by
  induction ss with
  | nil => rfl
  | cons s ss ih => rw [stmtsBytes, ih, List.flatMap_cons]

/-- Statements one after the other, behind their number, are a list like any other. -/
theorem listBytes_stmtBytes (ss : List Stmt) :
    lengthBytes ss.length ++ stmtsBytes ss = listBytes stmtBytes ss := by
  rw [stmtsBytes_eq]
  rfl

section Statements

variable {n : Nat} (ih : Reads n (Decoder.stmt n) StmtFits stmtBytes)

include ih

theorem stmt_sound {bytes rest : List UInt8} {s : Stmt}
    (h : Decoder.stmt (n + 1) bytes = .ok s rest) : StmtFits s ∧ bytes = stmtBytes s ++ rest := by
  rw [Decoder.stmt] at h
  obtain ⟨tag, mid, htag, rfl, h₁⟩ := (tag_reads n (by decide)).front h
  clear h
  have hexpr := expr_reads (n + 1)
  have hbody := list_reads ih
  have hdoc := option_reads (text_reads n)
  interval_cases tag
  · obtain ⟨x, mid, hx, rfl, h₂⟩ := (text_reads n).front h₁
    obtain ⟨value, mid, hv, rfl, h₃⟩ := hexpr.front h₂
    obtain ⟨s, mid, -, rfl, h₄⟩ := (span_reads n).front h₃
    cases h₄
    exact ⟨.bind hx hv s, by simp only [stmtBytes, List.append_assoc]⟩
  · obtain ⟨target, mid, ht, rfl, h₂⟩ := hexpr.front h₁
    obtain ⟨value, mid, hv, rfl, h₃⟩ := hexpr.front h₂
    obtain ⟨s, mid, -, rfl, h₄⟩ := (span_reads n).front h₃
    cases h₄
    exact ⟨.assign ht hv s, by simp only [stmtBytes, List.append_assoc]⟩
  · obtain ⟨x, mid, hx, rfl, h₂⟩ := (text_reads n).front h₁
    obtain ⟨params, mid, hp, rfl, h₃⟩ := (list_reads (param_reads (n + 1))).front h₂
    obtain ⟨body, mid, hb, rfl, h₄⟩ := hbody.front h₃
    obtain ⟨doc, mid, hd, rfl, h₅⟩ := hdoc.front h₄
    obtain ⟨s, mid, -, rfl, h₆⟩ := (span_reads n).front h₅
    cases h₆
    refine ⟨.function hx hp.1 hp.2 hb.1 hb.2 hd s, ?_⟩
    simp only [stmtBytes, listBytes_stmtBytes, List.append_assoc]
  · obtain ⟨x, mid, hx, rfl, h₂⟩ := (text_reads n).front h₁
    obtain ⟨bases, mid, hc, rfl, h₃⟩ := (list_reads hexpr).front h₂
    obtain ⟨body, mid, hb, rfl, h₄⟩ := hbody.front h₃
    obtain ⟨doc, mid, hd, rfl, h₅⟩ := hdoc.front h₄
    obtain ⟨s, mid, -, rfl, h₆⟩ := (span_reads n).front h₅
    cases h₆
    refine ⟨.classDef hx hc.1 hc.2 hb.1 hb.2 hd s, ?_⟩
    simp only [stmtBytes, listBytes_stmtBytes, List.append_assoc]
  · obtain ⟨value, mid, hv, rfl, h₂⟩ := (option_reads hexpr).front h₁
    obtain ⟨s, mid, -, rfl, h₃⟩ := (span_reads n).front h₂
    cases h₃
    exact ⟨.leave hv s, by simp only [stmtBytes, List.append_assoc]⟩
  · obtain ⟨value, mid, hv, rfl, h₂⟩ := hexpr.front h₁
    obtain ⟨s, mid, -, rfl, h₃⟩ := (span_reads n).front h₂
    cases h₃
    exact ⟨.raise hv s, by simp only [stmtBytes, List.append_assoc]⟩
  · obtain ⟨cond, mid, hc, rfl, h₂⟩ := hexpr.front h₁
    obtain ⟨whenTrue, mid, ht, rfl, h₃⟩ := hbody.front h₂
    obtain ⟨whenFalse, mid, hf, rfl, h₄⟩ := hbody.front h₃
    obtain ⟨s, mid, -, rfl, h₅⟩ := (span_reads n).front h₄
    cases h₅
    refine ⟨.branch hc ht.1 ht.2 hf.1 hf.2 s, ?_⟩
    simp only [stmtBytes, listBytes_stmtBytes, List.append_assoc]
  · obtain ⟨value, mid, hv, rfl, h₂⟩ := hexpr.front h₁
    cases h₂
    exact ⟨.expr hv, by simp only [stmtBytes, List.append_assoc]⟩

theorem stmt_complete {s : Stmt} (hs : StmtFits s) (hn : (stmtBytes s).length ≤ n + 1)
    (rest : List UInt8) : Decoder.stmt (n + 1) (stmtBytes s ++ rest) = .ok s rest := by
  rw [Decoder.stmt]
  have htag (tag : Nat) (ht : tag < 8) {f : Nat → Decoder Stmt} (behind : List UInt8) :
      (Decoder.tag 8 >>= f) (tagBytes tag ++ behind) = f tag behind :=
    (tag_reads 4 (by decide)).behind ht (Nat.le_of_eq (length_tagBytes tag)) behind f
  have hexpr := expr_reads (n + 1)
  have hbody := list_reads ih
  have hdoc := option_reads (text_reads n)
  cases hs with
  | @bind x value hx hv s =>
    simp only [stmtBytes, List.length_append, length_tagBytes] at hn
    simp only [stmtBytes, List.append_assoc, htag 0 (by decide)]
    rw [(text_reads n).behind hx (by omega), hexpr.behind hv (by omega),
      (span_reads n).behind trivial (by omega)]
    rfl
  | @assign target value ht hv s =>
    simp only [stmtBytes, List.length_append, length_tagBytes] at hn
    simp only [stmtBytes, List.append_assoc, htag 1 (by decide)]
    rw [hexpr.behind ht (by omega), hexpr.behind hv (by omega),
      (span_reads n).behind trivial (by omega)]
    rfl
  | @function x params body doc hx hpl hp hbl hb hd s =>
    simp only [stmtBytes, listBytes_stmtBytes, List.length_append, length_tagBytes] at hn
    simp only [stmtBytes, listBytes_stmtBytes, List.append_assoc, htag 2 (by decide)]
    rw [(text_reads n).behind hx (by omega),
      (list_reads (param_reads (n + 1))).behind ⟨hpl, hp⟩ (by omega),
      hbody.behind ⟨hbl, hb⟩ (by omega), hdoc.behind hd (by omega),
      (span_reads n).behind trivial (by omega)]
    rfl
  | @classDef x bases body doc hx hcl hc hbl hb hd s =>
    simp only [stmtBytes, listBytes_stmtBytes, List.length_append, length_tagBytes] at hn
    simp only [stmtBytes, listBytes_stmtBytes, List.append_assoc, htag 3 (by decide)]
    rw [(text_reads n).behind hx (by omega), (list_reads hexpr).behind ⟨hcl, hc⟩ (by omega),
      hbody.behind ⟨hbl, hb⟩ (by omega), hdoc.behind hd (by omega),
      (span_reads n).behind trivial (by omega)]
    rfl
  | @leave value hv s =>
    simp only [stmtBytes, List.length_append, length_tagBytes] at hn
    simp only [stmtBytes, List.append_assoc, htag 4 (by decide)]
    rw [(option_reads hexpr).behind hv (by omega), (span_reads n).behind trivial (by omega)]
    rfl
  | @raise value hv s =>
    simp only [stmtBytes, List.length_append, length_tagBytes] at hn
    simp only [stmtBytes, List.append_assoc, htag 5 (by decide)]
    rw [hexpr.behind hv (by omega), (span_reads n).behind trivial (by omega)]
    rfl
  | @branch cond whenTrue whenFalse hc htl ht hfl hf s =>
    simp only [stmtBytes, listBytes_stmtBytes, List.length_append, length_tagBytes] at hn
    simp only [stmtBytes, listBytes_stmtBytes, List.append_assoc, htag 6 (by decide)]
    rw [hexpr.behind hc (by omega), hbody.behind ⟨htl, ht⟩ (by omega),
      hbody.behind ⟨hfl, hf⟩ (by omega), (span_reads n).behind trivial (by omega)]
    rfl
  | @expr value hv =>
    simp only [stmtBytes, List.length_append, length_tagBytes] at hn
    simp only [stmtBytes, List.append_assoc, htag 7 (by decide)]
    rw [hexpr.behind hv (by omega)]
    rfl

end Statements

theorem stmt_reads (n : Nat) : Reads n (Decoder.stmt n) StmtFits stmtBytes := by
  induction n with
  | zero =>
    refine ⟨(fun h => by cases h), fun {s} _ hn => ?_⟩
    cases s <;> simp [stmtBytes, length_tagBytes] at hn
  | succ n ih => exact ⟨stmt_sound ih, fun hs hn => stmt_complete ih hs hn⟩

/-! ## Units -/

theorem unit_reads (n : Nat) : Reads n (Decoder.unit n) UnitFits payload := by
  have hbody := list_reads (stmt_reads n)
  constructor
  · intro bytes rest u h
    obtain ⟨origin, mid, ho, rfl, h₁⟩ := (text_reads n).front h
    obtain ⟨body, mid, hb, rfl, h₂⟩ := hbody.front h₁
    cases h₂
    exact ⟨⟨ho, hb.1, hb.2⟩, by simp only [payload, listBytes_stmtBytes, List.append_assoc]⟩
  · intro u hu hn rest
    simp only [payload, listBytes_stmtBytes, List.length_append] at hn
    simp only [payload, listBytes_stmtBytes, List.append_assoc]
    unfold Decoder.unit
    rw [(text_reads n).behind hu.origin (by omega), hbody.behind ⟨hu.length, hu.body⟩ (by omega)]
    rfl

theorem decodePayload_eq_ok_iff {bytes : List UInt8} {u : CodeUnit} :
    decodePayload bytes = .ok u ↔ UnitFits u ∧ payload u <+: bytes := by
  unfold decodePayload
  constructor
  · intro h
    split at h
    · rename_i v rest hr
      cases h
      obtain ⟨hu, hbytes⟩ := (unit_reads _).sound hr
      exact ⟨hu, rest, hbytes.symm⟩
    · cases h
  · rintro ⟨hu, rest, rfl⟩
    have hn : (payload u).length ≤ (payload u ++ rest).length + 1 := by
      rw [List.length_append]
      omega
    rw [(unit_reads _).complete hu hn rest]

/-- The eight bytes that every compiled unit begins with. -/
def header : List UInt8 := magic ++ wordBytes 4 version

theorem length_header : header.length = 8 := rfl

theorem encode_eq (u : CodeUnit) : encode u = header ++ payload u := rfl

theorem versionOf_eq_ok {bytes : List UInt8} {k : Nat} (h : versionOf bytes = .ok k) :
    ∃ rest, bytes = wordBytes 4 k ++ rest := by
  unfold versionOf at h
  split at h
  · rename_i j rest hr
    cases h
    exact ⟨rest, (word_sound 4 hr).2⟩
  · cases h

theorem decode_header (rest : List UInt8) :
    decode (header ++ rest) =
      match decodePayload rest with
      | .ok u => .ok u
      | .error e => .error (.payload e) := by
  have hlen : ¬ (header ++ rest).length < 8 := by
    rw [List.length_append, length_header]
    omega
  unfold decode
  rw [if_neg hlen]
  rfl

theorem decode_eq_ok {bytes : List UInt8} {u : CodeUnit} (h : decode bytes = .ok u) :
    ∃ rest, bytes = header ++ rest ∧ decodePayload rest = .ok u := by
  unfold decode at h
  split at h
  · cases h
  · split at h
    · cases h
    · rename_i hmagic
      split at h
      · cases h
      · rename_i found hfound
        split at h
        · cases h
        · rename_i hversion
          split at h
          · rename_i v hpayload
            cases h
            obtain ⟨rest, hrest⟩ := versionOf_eq_ok hfound
            rw [Decidable.not_not] at hmagic hversion
            have hbytes : bytes = header ++ rest := by
              rw [← List.take_append_drop 4 bytes, hmagic, hrest, hversion]
              rfl
            rw [hbytes] at hpayload
            exact ⟨rest, hbytes, hpayload⟩
          · cases h

theorem decode_eq_ok_iff {bytes : List UInt8} {u : CodeUnit} :
    decode bytes = .ok u ↔ UnitFits u ∧ encode u <+: bytes := by
  rw [encode_eq]
  constructor
  · intro h
    obtain ⟨rest, rfl, hpayload⟩ := decode_eq_ok h
    obtain ⟨hu, hbegins⟩ := decodePayload_eq_ok_iff.1 hpayload
    exact ⟨hu, (List.prefix_append_right_inj header).2 hbegins⟩
  · rintro ⟨hu, rest, rfl⟩
    rw [List.append_assoc, decode_header,
      decodePayload_eq_ok_iff.2 ⟨hu, List.prefix_append (payload u) rest⟩]

/-- A compiled form is that of one unit only. -/
theorem eq_of_encode_begins {u v : CodeUnit} (hu : UnitFits u) (hv : UnitFits v)
    (h : encode v <+: encode u) : v = u := by
  have hu := decode_eq_ok_iff.2 ⟨hu, List.prefix_rfl⟩
  have hv := decode_eq_ok_iff.2 ⟨hv, h⟩
  rw [hu] at hv
  cases hv
  rfl

/-- A compiled form that is cut short is refused: what is accepted would be another unit, and its form
would begin this one. -/
theorem decode_take {u : CodeUnit} (hu : UnitFits u) {k : Nat} (hk : k < (encode u).length) :
    ∃ e, decode ((encode u).take k) = .error e := by
  cases hr : decode ((encode u).take k) with
  | error e => exact ⟨e, rfl⟩
  | ok v =>
    obtain ⟨hv, hbegins⟩ := decode_eq_ok_iff.1 hr
    have htake := List.take_prefix k (encode u)
    obtain rfl := eq_of_encode_begins hu hv (hbegins.trans htake)
    have hle := hbegins.length_le
    rw [List.length_take] at hle
    omega

/-- Reading accepts bytes as a unit exactly when they begin with its compiled form, a header of eight bytes
and the tree. So a unit is read back as it was written, the forms of two units never begin one another, and
a form that is cut short is refused. -/
theorem decode_canonical {u : CodeUnit} (hu : UnitFits u) :
    encode u = [0x45, 0x4D, 0x42, 0x43, 1, 0, 0, 0] ++ payload u ∧
      (∀ bytes, decode bytes = .ok u ↔ encode u <+: bytes) ∧
      decode (encode u) = .ok u ∧
      (∀ v, UnitFits v → encode v <+: encode u ∨ encode u <+: encode v → v = u) ∧
      ∀ k < (encode u).length, ∃ e, decode ((encode u).take k) = .error e := by
  refine ⟨rfl, fun bytes => ?_, decode_eq_ok_iff.2 ⟨hu, List.prefix_rfl⟩, fun v hv h => ?_,
    fun k hk => decode_take hu hk⟩
  · rw [decode_eq_ok_iff]
    exact and_iff_right hu
  · rcases h with h | h
    · exact eq_of_encode_begins hu hv h
    · exact (eq_of_encode_begins hv hu h).symm

namespace Sample

/-- A unit with a class in it, a method with a default, and a call. -/
def unit : CodeUnit :=
  ⟨"m.em", [.classDef "C" [.ident "B" .dummy]
    [.function "f" [⟨"x", some (.int (-1) .dummy)⟩]
      [.leave (some (.call (.ident "g" .dummy) [.unary .neg (.ident "x" .dummy) .dummy] .dummy)) .dummy]
      (some "é") .dummy] none .dummy]⟩

theorem unit_fits : UnitFits unit := by
  have hcall : ExprFits (.call (.ident "g" .dummy) [.unary .neg (.ident "x" .dummy) .dummy] .dummy) :=
    .call (.ident (by decide) _) (by decide)
      (List.forall_mem_singleton.2 (.unary _ (.ident (by decide) _) _)) _
  have hparam : ParamFits ⟨"x", some (.int (-1) .dummy)⟩ :=
    ⟨(by decide : TextFits "x"), fun e he => by cases he; exact .int _ _⟩
  have hreturn : StmtFits (.leave (some (.call (.ident "g" .dummy)
      [.unary .neg (.ident "x" .dummy) .dummy] .dummy)) .dummy) :=
    .leave (fun e he => by cases he; exact hcall) _
  refine ⟨by decide, by decide, List.forall_mem_singleton.2 ?_⟩
  refine .classDef (by decide) (by decide) (List.forall_mem_singleton.2 (.ident (by decide) _))
    (by decide) (List.forall_mem_singleton.2 ?_) (fun d hd => by cases hd) _
  refine .function (by decide) (by decide) (List.forall_mem_singleton.2 hparam) (by decide)
    (List.forall_mem_singleton.2 hreturn) (fun d hd => ?_) _
  cases hd
  decide

end Sample

theorem decode_canonical_sample :
    UnitFits Sample.unit ∧ decode (encode Sample.unit ++ [0]) = .ok Sample.unit ∧
      ∃ e, decode ((encode Sample.unit).take 40) = .error e := by
  obtain ⟨-, hiff, -, -, hcut⟩ := decode_canonical Sample.unit_fits
  exact ⟨Sample.unit_fits, (hiff _).2 (List.prefix_append _ _), hcut 40 (by decide +kernel)⟩

end Compiled

end LivePatch
