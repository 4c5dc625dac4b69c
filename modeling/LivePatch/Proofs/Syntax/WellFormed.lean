/-
What comes from tokens can be written down again. Only the tokens of a source text are needed for it:
that each of them can be written down. The rest is in the derivation, which gives an assignment its
target, a class its items and the defaults of a function their place.
-/
import LivePatch.Proofs.Syntax.Sound
import LivePatch.Proofs.Token.Scanned

namespace LivePatch

open Spelling (docTrimmed)

/-- Every token of the list can be written down. -/
def AllWellFormed (ts : List PlacedToken) : Prop := ∀ p ∈ ts, p.token.wellFormed = true

namespace AllWellFormed

variable {ts us : List PlacedToken} {p : PlacedToken}

theorem head (h : AllWellFormed (p :: ts)) : p.token.wellFormed = true := h p (List.mem_cons_self ..)

theorem tail (h : AllWellFormed (p :: ts)) : AllWellFormed ts := fun q hq => h q (List.mem_cons_of_mem _ hq)

theorem left (h : AllWellFormed (ts ++ us)) : AllWellFormed ts := fun q hq => h q (List.mem_append_left _ hq)

theorem right (h : AllWellFormed (ts ++ us)) : AllWellFormed us := fun q hq => h q (List.mem_append_right _ hq)

/-- The name of an identifier. -/
theorem isIdentifier {x : Name} (h : AllWellFormed (p :: ts)) (hx : p.token = .ident x) :
    Spelling.isIdentifier x = true := by
  have hp := h.head
  rw [hx] at hp
  exact hp

end AllWellFormed

/-! ## Expressions -/

theorem Expr.wellFormed_withSpan (s : Span) (e : Expr) : (e.withSpan s).wellFormed = e.wellFormed := by
  cases e <;> rfl

theorem Expr.wellFormed_of_leaf? {p : PlacedToken} {e : Expr} (he : leaf? p = some e)
    (hp : p.token.wellFormed = true) : e.wellFormed = true := by
  revert hp
  refine Expr.leaf?_cases he ?_ ?_ ?_ ?_ ?_ ?_ <;> intros <;> first | rfl | assumption

mutual

theorem Expr.From.wellFormed : ∀ {ts : List PlacedToken} {e : Expr}, Expr.From ts e → AllWellFormed ts →
    e.wellFormed = true
  | _, _, .leaf he, h => Expr.wellFormed_of_leaf? he h.head
  | _, _, .bracketed _ he _, h => by
    rw [Expr.wellFormed_withSpan]
    exact he.wellFormed h.tail.left
  | _, _, .attr he _ hx, h => by
    simp [Expr.wellFormed, he.wellFormed h.left, h.right.tail.isIdentifier hx]
  | _, _, .call he _ hes _, h => by
    simp [Expr.wellFormed, he.wellFormed h.left, hes.wellFormed h.right.tail.left]
  | _, _, .binary hl _ hr, h => by
    simp [Expr.join, Expr.wellFormed, hl.wellFormed h.left, hr.wellFormed h.right.tail]
  | _, _, .unary _ he, h => he.wellFormed h.tail

theorem Expr.AllFrom.wellFormed : ∀ {ts : List PlacedToken} {es : List Expr}, Expr.AllFrom ts es →
    AllWellFormed ts → Expr.allWellFormed es = true
  | _, _, .nil, _ => rfl
  | _, _, .last he, h => by simp [Expr.allWellFormed, he.wellFormed h]
  | _, _, .cons he _ hes, h => by
    simp [Expr.allWellFormed, he.wellFormed h.left, hes.wellFormed h.right.tail]

end

theorem Expr.BasesFrom.wellFormed {ts : List PlacedToken} {es : List Expr} (hes : Expr.BasesFrom ts es)
    (h : AllWellFormed ts) : Expr.allWellFormed es = true := by
  cases hes with
  | none => rfl
  | some _ hes _ => exact hes.wellFormed h.tail.left

/-! ## Parameters and doc texts -/

theorem Param.From.wellFormed {ts : List PlacedToken} {p : Param} (hp : Param.From ts p)
    (h : AllWellFormed ts) : p.wellFormed = true := by
  cases hp with
  | plain hx => simp [Param.wellFormed, h.isIdentifier hx]
  | defaulted hx _ he => simp [Param.wellFormed, h.isIdentifier hx, he.wellFormed h.tail.tail]

theorem Param.AllFrom.wellFormed {ts : List PlacedToken} {ps : List Param} (hps : Param.AllFrom ts ps)
    (h : AllWellFormed ts) : ps.all Param.wellFormed = true := by
  induction hps with
  | nil => rfl
  | last hp => rw [List.all_cons, hp.wellFormed h, List.all_nil, Bool.and_true]
  | cons hp _ _ ih => rw [List.all_cons, hp.wellFormed h.left, ih h.right.tail, Bool.and_true]

/-- Lines that are joined can be told apart again, as no line has a line break in it. -/
theorem Spelling.docLines_intercalate {lines : List String} (hne : lines ≠ [])
    (h : ∀ line ∈ lines, '\n' ∉ line.toList) : docLines ("\n".intercalate lines) = lines := by
  unfold docLines
  rw [String.toList_intercalate]
  show List.map String.ofList (List.splitOn '\n' (['\n'].intercalate _)) = _
  rw [List.splitOn_intercalate _ (by simpa using h) (by simpa using hne), List.map_map]
  exact (List.map_congr_left fun _ _ => String.ofList_toList).trans (List.map_id _)

theorem DocFrom.docTrimmed {ds : List PlacedToken} {doc : Option String} (hd : DocFrom ds doc)
    (h : AllWellFormed ds) : Spelling.docTrimmed doc = true := by
  obtain ⟨lines, hds, rfl⟩ := hd
  have hlines : ∀ line ∈ lines, '\n' ∉ line.toList ∧ Text.trim line.toList = line.toList := by
    intro line hl
    obtain ⟨p, hp, he⟩ := List.mem_map.1 (show Token.doc line ∈ ds.map (·.token) from
      hds ▸ List.mem_map_of_mem hl)
    have hline : (Token.doc line).wellFormed = true := he ▸ h p hp
    obtain ⟨hbreak, htrim⟩ := Bool.and_eq_true_iff.1 hline
    exact ⟨fun hc => by simpa using List.all_eq_true.1 hbreak _ hc, of_decide_eq_true htrim⟩
  cases lines with
  | nil => rfl
  | cons line lines =>
    show (Spelling.docLines ("\n".intercalate (line :: lines))).all _ = true
    rw [Spelling.docLines_intercalate (List.cons_ne_nil _ _) fun l hl => (hlines l hl).1, List.all_eq_true]
    exact fun l hl => decide_eq_true (hlines l hl).2

/-! ## Statements -/

namespace Part.From

/-- The derivation of a single statement is silent about its doc text, which stands before it. -/
theorem wellFormed {k : Part} {ts : List PlacedToken} {ss : List Stmt} (hs : Part.From k ts ss)
    (hdoc : k = .statement → ∀ s ∈ ss, docTrimmed s.doc? = true) (h : AllWellFormed ts) :
    Stmt.allWellFormed ss = true := by
  induction hs with
  | bind hstart hx hequal he =>
    simp [Stmt.allWellFormed, Stmt.wellFormed, h.tail.isIdentifier hx, he.wellFormed h.tail.tail.tail]
  | assign ht htarget hequal hv =>
    simp [Stmt.allWellFormed, Stmt.wellFormed, htarget, ht.wellFormed h.left, hv.wellFormed h.right.tail]
  | expr he => simp [Stmt.allWellFormed, Stmt.wellFormed, he.wellFormed h]
  | leaveNothing => rfl
  | leave hstart he | raise hstart he =>
    simp [Stmt.allWellFormed, Stmt.wellFormed, he.wellFormed h.tail]
  | branch hstart hc ht hf iht ihf =>
    simp [Stmt.allWellFormed, Stmt.wellFormed, hc.wellFormed h.tail.left, iht (by simp) h.tail.right.left,
      ihf (by simp) h.tail.right.right]
  | function doc hstart hx ho hps hlast hc hbody ih =>
    have hd : docTrimmed doc = true := hdoc rfl _ (List.mem_singleton_self _)
    simp [Stmt.allWellFormed, Stmt.wellFormed, h.tail.isIdentifier hx, hlast, hd,
      hps.wellFormed h.tail.tail.tail.left, ih (by simp) h.tail.tail.tail.right.tail]
  | classDef doc hstart hx hes ho hbody hitems hc ih =>
    have hd : docTrimmed doc = true := hdoc rfl _ (List.mem_singleton_self _)
    have hall := List.all_eq_true.2 hitems
    simp [Stmt.allWellFormed, Stmt.wellFormed, h.tail.isIdentifier hx, hd, hall,
      hes.wellFormed h.tail.tail.left, ih (by simp) h.tail.tail.right.tail.left]
  | item hd hs he ih =>
    refine ih (fun _ s hs => ?_) h.right.left
    rw [List.mem_singleton.1 hs]
    exact hd.docTrimmed h.left
  | nil | noOtherwise => rfl
  | cons hs hss ih ihs =>
    have hs := ih (by simp) h.left
    simp only [Stmt.allWellFormed, Bool.and_true] at hs
    simp [Stmt.allWellFormed, hs, ihs (by simp) h.right]
  | block ho hss hc ih => exact ih (by simp) h.tail.left
  | body hss ih => exact ih (by simp) h
  | shortBody hequal he => simp [Stmt.allWellFormed, Stmt.wellFormed, he.wellFormed h.tail]
  | otherwise hword hss ih => exact ih (by simp) h.tail
  | chained hword hs hnone ih =>
    refine ih (fun _ s hs => ?_) h.tail
    rw [List.mem_singleton.1 hs, hnone]
    rfl

end Part.From

/-- A unit that is read from a source text can be written down. -/
theorem CodeUnit.wellFormed_of_parse {source origin : String} {u : CodeUnit}
    (h : parse source origin = .ok u) : u.wellFormed = true := by
  obtain ⟨tokens, hscan, hbody⟩ := from_of_parse h
  exact hbody.wellFormed (by simp) (Token.scanned_of_scan hscan).wellFormed

end LivePatch
