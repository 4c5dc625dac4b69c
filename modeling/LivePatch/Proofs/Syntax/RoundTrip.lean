/-
Reading back what a unit of code is spelt as. The reader of a statement is chosen by its first token; it
reads the tokens of the statement if its bounds are not below their number. The proof is an induction over
the statements of the unit, each bound of which falls at a brace or at the keyword of a definition.
-/
import LivePatch.Proofs.Syntax.Statement

namespace LivePatch

open Spelling (commas braces docTokens returned? defaultsLast)

/-! ## Items -/

theorem Spelling.eq_doc_of_mem_docTokens {doc : Option String} {t : Token} (h : t ∈ docTokens doc) :
    ∃ line, t = .doc line := by
  cases doc with
  | none => cases h
  | some text =>
    obtain ⟨line, -, rfl⟩ := List.mem_map.1 h
    exact ⟨line, rfl⟩

namespace Stmt

/-- The tokens of a statement, behind those of its doc text and with a semicolon behind it. -/
def spellItem (style : Style) (s : Stmt) : List Token :=
  docTokens s.doc? ++ (s.spell style ++ [.sign .semicolon])

variable (style : Style)

theorem spellAll_eq_flatMap (ss : List Stmt) : spellAll style ss = ss.flatMap (spellItem style) := by
  induction ss with
  | nil => rfl
  | cons s ss ih =>
    rw [spellAll, ih, List.flatMap_cons, spellItem, List.append_assoc, List.append_assoc]
    rfl

theorem length_spell_lt (s : Stmt) : (s.spell style).length < (s.spellItem style).length := by
  simp only [spellItem, List.length_append, List.length_singleton]
  omega

theorem length_spellItem_le {s : Stmt} {ss : List Stmt} (h : s ∈ ss) :
    (s.spellItem style).length ≤ (spellAll style ss).length := by
  obtain ⟨before, behind, rfl⟩ := List.append_of_mem h
  rw [spellAll_eq_flatMap, List.flatMap_append, List.flatMap_cons, List.length_append, List.length_append]
  omega

theorem count_le_spellAll (ss : List Stmt) : ss.length ≤ (spellAll style ss).length := by
  rw [spellAll_eq_flatMap]
  induction ss with
  | nil => exact Nat.le_refl _
  | cons s ss ih =>
    have hpos := Nat.zero_lt_of_lt (s.length_spell_lt style)
    rw [List.flatMap_cons, List.length_append, List.length_cons]
    omega

/-- The first token of a statement neither ends a block nor belongs to a doc text. -/
theorem spell_head (s : Stmt) :
    ∃ t ∈ (s.spell style).head?, t ≠ .sign .rightBrace ∧ ∀ text, t ≠ .doc text := by
  have hexpr : ∀ (e : Expr) (ts : List Token),
      ∃ t ∈ (e.spell ++ ts).head?, t ≠ .sign .rightBrace ∧ ∀ text, t ≠ .doc text := by
    intro e ts
    obtain ⟨t, ht, hopen⟩ := e.opens.append ts
    refine ⟨t, ht, ?_, ?_⟩
    · rintro rfl
      cases hopen
    · rintro text rfl
      cases hopen
  cases s with
  | assign target value _ => exact hexpr target _
  | expr value =>
    have h := hexpr value []
    rwa [List.append_nil] at h
  | leave value _ => cases value <;> exact ⟨_, rfl, by decide, fun _ h => by cases h⟩
  | _ => exact ⟨_, rfl, by decide, fun _ h => by cases h⟩

theorem delimited_head (s : Stmt) :
    ∃ t ∈ (s.spell style ++ [Token.sign .semicolon]).head?, ∀ text, t ≠ .doc text := by
  obtain ⟨t, ht, -, hdoc⟩ := s.spell_head style
  exact ⟨t, by rw [List.head?_append, ht]; rfl, hdoc⟩

theorem spellItem_head (s : Stmt) : ∃ t ∈ (s.spellItem style).head?, t ≠ .sign .rightBrace := by
  unfold spellItem
  cases hdoc : docTokens s.doc? with
  | nil =>
    obtain ⟨t, ht, hne, -⟩ := s.spell_head style
    refine ⟨t, ?_, hne⟩
    rw [List.nil_append, List.head?_append, ht]
    rfl
  | cons t ts =>
    obtain ⟨line, rfl⟩ := Spelling.eq_doc_of_mem_docTokens (hdoc ▸ List.mem_cons_self : t ∈ docTokens s.doc?)
    exact ⟨_, rfl, fun h => by cases h⟩

end Stmt

/-! ## Readers of statements -/

namespace Stmt

open Reader

/-- The reader of a statement behind its doc text, with a bound for the statements nested in it and one
for its own parts. -/
def reader (n k : Nat) : Stmt → Reader Stmt
  | bind .. => binding (expression (n + 1))
  | function _ _ _ doc _ => Reader.function (expression (n + 1)) (statement n) k doc
  | classDef _ _ _ doc _ => Reader.classDef (expression (n + 1)) (statement n) k doc
  | leave .. => leaving (expression (n + 1))
  | raise .. => raising (expression (n + 1))
  | branch .. => branching (expression (n + 1)) (statement n) k
  | assign .. | expr _ => assignment (expression (n + 1))

/-- The reader of the statement reads its tokens, when its bounds are not below their number. -/
def ReadsBack (style : Style) (s : Stmt) : Prop :=
  ∀ {n k : Nat}, (s.spell style).length ≤ n → (s.spell style).length ≤ k →
    Reads (s.reader n k) (s.spell style) Ends s.Same

end Stmt

namespace Reads

variable {style : Style} {s : Stmt} {ss : List Stmt} {n k : Nat}

open Reader (expression statement)

theorem undelimited (h : Reads (s.reader n k) (s.spell style) Ends s.Same) :
    Reads (Reader.undelimited (expression (n + 1)) (statement n) k s.doc?) (s.spell style) Ends s.Same := by
  have hexpr : ∀ {e : Expr} {ts : List Token},
      Reads (Reader.assignment (expression (n + 1))) (e.spell ++ ts) Ends s.Same →
      Reads (Reader.undelimited (expression (n + 1)) (statement n) k none) (e.spell ++ ts) Ends s.Same := by
    intro e ts h
    obtain ⟨t, ht, hopen⟩ := e.opens.append ts
    have hno : ∀ {x : Keyword}, (Token.keyword x).opening = 0 → some t ≠ some (.keyword x) := by
      rintro x hx ⟨⟩
      omega
    unfold Reader.undelimited
    refine (peek (some t)).look ?_ fun _ _ => by rw [ht]; rfl
    rintro _ rfl
    -- no keyword of a statement begins an expression, so that only the last case is left
    split
    case h_3 hdoc _ _ => cases hdoc
    case h_8 => exact h
    all_goals exact absurd ‹some t = some (.keyword _)› (hno rfl)
  cases s with
  | assign target value _ => exact hexpr h
  | expr value =>
    rw [show (Stmt.expr value).spell style = value.spell ++ [] from (List.append_nil _).symm] at h ⊢
    exact hexpr h
  | leave value _ =>
    unfold Reader.undelimited
    refine (peek (some (.keyword .leave))).look ?_ fun _ _ => by cases value <;> rfl
    rintro _ rfl
    exact h
  | _ =>
    unfold Reader.undelimited
    refine (peek _).look ?_ fun _ _ => rfl
    rintro _ rfl
    exact h

/-- Expressions with commas between them. -/
theorem expressions {es : List Expr} (hn : (commas (Expr.spellEach es)).length ≤ n)
    (hk : (commas (Expr.spellEach es)).length ≤ k) :
    Reads (Reader.separated (.sign .rightParen) (expression (n + 1)) k) (commas (Expr.spellEach es))
      (· = some (.sign .rightParen)) (List.Forall₂ Expr.Same es) := by
  refine arguments_of_each (fun e he => e.reads_spell ?_) hk
  have hmem : e.spell ∈ Expr.spellEach es := by
    rw [Expr.spellEach_eq_map]
    exact List.mem_map_of_mem he
  exact Nat.le_trans (Spelling.length_le_commas hmem) hn

/-- Parameters with commas between them. -/
theorem parameters {ps : List Param} (hlast : defaultsLast ps = true)
    (hn : (commas (ps.map Param.spell)).length ≤ n) (hk : (commas (ps.map Param.spell)).length ≤ k) :
    Reads (Reader.params (expression (n + 1)) false k) (commas (ps.map Param.spell))
      (· = some (.sign .rightParen)) (List.Forall₂ Param.Same ps) := by
  have hcount : ps.length ≤ (commas (ps.map Param.spell)).length := by
    rw [← List.length_map Param.spell]
    refine Spelling.count_le_commas ?_
    intro ts hts
    obtain ⟨p, -, rfl⟩ := List.mem_map.1 hts
    exact List.cons_ne_nil _ _
  refine params (Nat.le_trans hcount hk) hlast ?_
  intro p hp e he
  have hle := Spelling.length_le_commas (List.mem_map_of_mem (f := Param.spell) hp)
  have hpart : e.spell.length ≤ p.spell.length := by
    unfold Param.spell
    rw [show p.default = some e from he]
    simp only [List.length_cons]
    omega
  exact e.reads_spell (by omega)

/-- A statement with its doc text and its semicolon, as an item of a block. -/
theorem statement (h : s.ReadsBack style) (hn : (s.spellItem style).length ≤ n) :
    Reads (Reader.statement n) (s.spellItem style) (fun _ => True) s.Same := by
  have hlt := s.length_spell_lt style
  obtain ⟨m, rfl⟩ : ∃ m, n = m + 1 := ⟨n - 1, by omega⟩
  rw [Reader.statement_succ]
  exact documented (delimited (undelimited (h (by omega) (by omega)))) (s.delimited_head style)

/-- A statement with its doc text and its semicolon, as an item of a class. -/
theorem classItem (h : s.ReadsBack style) (hitem : s.isClassItem = true)
    (hn : (s.spellItem style).length ≤ n) (hk : (s.spellItem style).length ≤ k) :
    Reads (Reader.classItem (expression (n + 1)) (Reader.statement n)
      (Reader.classDef (expression (n + 1)) (Reader.statement n) k) k) (s.spellItem style) (fun _ => True)
      s.Same := by
  have hlt := s.length_spell_lt style
  have hs := delimited (h (n := n) (k := k) (by omega) (by omega))
  refine documented ?_ (s.delimited_head style)
  cases s with
  | bind | function | classDef =>
    refine (peek _).look ?_ fun _ _ => rfl
    rintro _ rfl
    exact hs
  | _ => cases hitem

/-- The items of a block or of a class, when each of them is read. -/
theorem items {item : Reader Stmt} (h : ∀ s ∈ ss, Reads item (s.spellItem style) (fun _ => True) s.Same)
    (hk : (Stmt.spellAll style ss).length ≤ k) :
    Reads (Reader.untilSign (.sign .rightBrace) item k) (Stmt.spellAll style ss)
      (· = some (.sign .rightBrace)) (List.Forall₂ Stmt.Same ss) := by
  have hcount := Stmt.count_le_spellAll style ss
  rw [Stmt.spellAll_eq_flatMap] at *
  exact untilSign h (fun s _ => s.spellItem_head style) (Nat.le_trans hcount hk)

theorem body (h : ∀ s ∈ ss, s.ReadsBack style) (hn : (Stmt.spellAll style ss).length ≤ n)
    (hk : (Stmt.spellAll style ss).length ≤ k) :
    Reads (Reader.block (Reader.statement n) k) (braces (Stmt.spellAll style ss)) (fun _ => True)
      (List.Forall₂ Stmt.Same ss) :=
  block (items (fun s hs => statement (h s hs) (Nat.le_trans (Stmt.length_spellItem_le style hs) hn)) hk)

/-- The body of a function, spelt as an expression where the style shortens it. -/
theorem functionBody (h : ∀ s ∈ ss, s.ReadsBack style)
    (hn : (Spelling.functionBody style ss (Stmt.spellAll style ss)).length ≤ n)
    (hk : (Spelling.functionBody style ss (Stmt.spellAll style ss)).length ≤ k) :
    Reads (Reader.bodyOf (expression (n + 1)) (Reader.statement n) k)
      (Spelling.functionBody style ss (Stmt.spellAll style ss)) Ends (List.Forall₂ Stmt.Same ss) := by
  unfold Spelling.functionBody at hn hk ⊢
  cases hshort : if style.shortens then returned? ss else none with
  | none =>
    rw [hshort] at hn hk
    simp only [braces, List.length_cons, List.length_append] at hn hk
    exact bodyOf (body h (by omega) (by omega))
  | some e =>
    rw [hshort] at hn
    simp only [List.length_cons] at hn
    obtain ⟨-, hreturned⟩ := Option.ite_none_right_eq_some.1 hshort
    unfold returned? at hreturned
    split at hreturned
    · rename_i value sp
      rw [hreturned]
      exact bodyOf_short sp (e.reads_spell (by omega))
    · cases hreturned

theorem secondBlock (h : ∀ s ∈ ss, s.ReadsBack style) (hn : (Stmt.spellOtherwise style ss).length ≤ n)
    (hk : (Stmt.spellOtherwise style ss).length ≤ k) :
    Reads (Reader.otherwise (expression (n + 1)) (Reader.statement n) k) (Stmt.spellOtherwise style ss) Ends
      (List.Forall₂ Stmt.Same ss) := by
  cases ss with
  | nil =>
    refine otherwise_nothing.imp (fun _ ho => ho) ?_
    rintro _ rfl
    exact .nil
  | cons s ss =>
    unfold Stmt.spellOtherwise at hn hk ⊢
    by_cases hchain : (style.chains && ss.isEmpty && s.isBranch) = true
    · -- the reader of choices reads the second choice itself, so that its bound has to suffice
      rw [if_pos hchain] at hn hk ⊢
      simp only [Bool.and_eq_true, List.isEmpty_iff] at hchain
      obtain ⟨⟨-, rfl⟩, hbranch⟩ := hchain
      cases s with
      | branch cond whenTrue whenFalse sp =>
        simp only [List.length_cons] at hn hk
        exact otherwise_chained (h _ (List.mem_singleton_self _) (by omega) (by omega))
      | _ => cases hbranch
    · rw [if_neg hchain] at hn hk ⊢
      change (_ :: braces (Stmt.spellAll style (s :: ss))).length ≤ _ at hn hk
      simp only [braces, List.length_cons, List.length_append] at hn hk
      exact otherwise (body h (by omega) (by omega))

end Reads

/-! ## All statements -/

mutual

/-- A statement is read back from its tokens, up to the places of its nodes. -/
theorem Stmt.readsBack (style : Style) : ∀ s : Stmt, s.wellFormed = true → s.ReadsBack style
  | .bind x value sp, _, n, k, hn, hk => by
    simp only [Stmt.spell, List.length_cons] at hn
    exact .binding x sp (value.reads_spell (by omega))
  | .assign target value sp, hwf, n, k, hn, hk => by
    simp only [Stmt.wellFormed, Bool.and_eq_true] at hwf
    simp only [Stmt.spell, List.length_append, List.length_cons] at hn
    exact .assignment sp (target.reads_spell (by omega)) hwf.1.1 (value.reads_spell (by omega))
  | .function x ps body doc sp, hwf, n, k, hn, hk => by
    simp only [Stmt.wellFormed, Bool.and_eq_true] at hwf
    simp only [Stmt.spell, List.length_append, List.length_cons] at hn hk
    have hbody := Stmt.allReadBack style body hwf.2
    exact .function x doc sp (.parameters hwf.1.1.2 (by omega) (by omega))
      (.functionBody hbody (by omega) (by omega))
  | .classDef x es body doc sp, hwf, n, k, hn, hk => by
    simp only [Stmt.wellFormed, Bool.and_eq_true] at hwf
    simp only [Stmt.spell, braces, List.length_append, List.length_cons] at hn hk
    -- a class in this one is read with a smaller bound, which suffices as its tokens are fewer
    obtain ⟨k, rfl⟩ : ∃ j, k = j + 1 := ⟨k - 1, by omega⟩
    have hbody := Stmt.allReadBack style body hwf.2
    have hitems := List.all_eq_true.1 hwf.1.2
    have hes : (commas (Expr.spellEach es)).length ≤ n ∧ (commas (Expr.spellEach es)).length ≤ k := by
      cases es with
      | nil => exact ⟨Nat.zero_le _, Nat.zero_le _⟩
      | cons e es =>
        simp only [List.isEmpty_cons, Bool.false_eq_true, if_false, List.length_cons,
          List.length_append] at hn hk
        omega
    refine .classDef x doc sp (.expressions hes.1 hes.2) (.items ?_ (by omega))
    intro s hs
    have hle := Stmt.length_spellItem_le style hs
    exact .classItem (hbody s hs) (hitems s hs) (by omega) (by omega)
  | .leave none sp, _, n, k, hn, hk => .leaving_nothing sp
  | .leave (some value) sp, _, n, k, hn, hk => by
    simp only [Stmt.spell, List.length_cons] at hn
    exact .leaving sp (value.reads_spell (by omega))
  | .raise value sp, _, n, k, hn, hk => by
    simp only [Stmt.spell, List.length_cons] at hn
    exact .raising sp (value.reads_spell (by omega))
  | .branch cond whenTrue whenFalse sp, hwf, n, k, hn, hk => by
    simp only [Stmt.wellFormed, Bool.and_eq_true] at hwf
    simp only [Stmt.spell, braces, List.length_append, List.length_cons] at hn hk
    obtain ⟨k, rfl⟩ : ∃ j, k = j + 1 := ⟨k - 1, by omega⟩
    have htrue := Stmt.allReadBack style whenTrue hwf.1.2
    have hfalse := Stmt.allReadBack style whenFalse hwf.2
    exact .branching sp (cond.reads_spell (by omega)) (.body htrue (by omega) (by omega))
      (.secondBlock hfalse (by omega) (by omega))
  | .expr value, _, n, k, hn, hk => .assignment_expr (value.reads_spell hn)

theorem Stmt.allReadBack (style : Style) : ∀ ss : List Stmt, Stmt.allWellFormed ss = true →
    ∀ s ∈ ss, s.ReadsBack style
  | s :: ss, hwf, s', hs => by
    simp only [Stmt.allWellFormed, Bool.and_eq_true] at hwf
    rcases List.mem_cons.1 hs with hs | hs
    · rw [hs]
      exact Stmt.readsBack style s hwf.1
    · exact Stmt.allReadBack style ss hwf.2 s' hs

end

namespace CodeUnit

/-- Reading the tokens of a unit that can be written down gives the unit back up to the places of its
nodes, in either style and wherever the tokens stand. -/
theorem ofTokens_spell (style : Style) (u : CodeUnit) (tokens : List PlacedToken)
    (hu : u.wellFormed = true) (htokens : tokens.map (·.token) = u.spell style) :
    ∃ body, ofTokens? tokens = .ok body ∧ (⟨u.origin, body⟩ : CodeUnit).unplaced = u.unplaced := by
  have hlen : tokens.length = (Stmt.spellAll style u.body).length := by
    rw [← List.length_map (·.token), htokens]
    rfl
  have hcount := Stmt.count_le_spellAll style u.body
  -- the bound is above the number of all tokens, and so above that of the tokens of an item
  have hitem : ∀ s ∈ u.body,
      Reads (Reader.statement (tokens.length + 1)) (s.spellItem style) (fun _ => True) s.Same := by
    intro s hs
    have hle := Stmt.length_spellItem_le style hs
    exact .statement (Stmt.allReadBack style u.body hu s hs) (by omega)
  have hne : ∀ s ∈ u.body, s.spellItem style ≠ [] := fun s _ =>
    List.length_pos_iff.1 (Nat.zero_lt_of_lt (s.length_spell_lt style))
  have hread := Reads.untilEnd (k := tokens.length + 1) hitem hne (by omega)
  rw [← Stmt.spellAll_eq_flatMap] at hread
  obtain ⟨body, last, hrun, hsame⟩ := hread .dummy tokens [] htokens rfl
  refine ⟨body, ?_, ?_⟩
  · rw [List.append_nil] at hrun
    unfold ofTokens?
    simp only [hrun]
  · exact congrArg (CodeUnit.mk u.origin) (Stmt.unplacedAll_of_forall₂ hsame)

namespace Sample

def name (x : Name) : Expr := .ident x .dummy

def binary (op : BinaryOp) (left right : Expr) : Expr := .binary op left right .dummy

/-- A function `area(self, scale = 2)` that returns `self.side * (self.side + scale)`. -/
def area : Stmt :=
  .function "area" [⟨"self", none⟩, ⟨"scale", some (.int 2 .dummy)⟩]
    [.leave (some (binary .mul (.attr (name "self") "side" .dummy)
      (binary .add (.attr (name "self") "side" .dummy) (name "scale")))) .dummy]
    (some "The area.\n\nIt grows.") .dummy

/-- A class, and a choice between three blocks. -/
def shapes : CodeUnit :=
  ⟨"shapes", [
    .classDef "Shape" [name "Base"] [.bind "sides" (.int 4 .dummy) .dummy, area] none .dummy,
    .branch (binary .or (.unary .not (name "ready") .dummy)
        (binary .less (.unary .neg (name "n") .dummy) (.int 1 .dummy)))
      [.assign (.attr (name "shape") "side" .dummy) (.call (name "half") [name "n"] .dummy) .dummy]
      [.branch (name "strict") [.raise (.str "no shape" .dummy) .dummy] [.expr (name "shape")] .dummy]
      .dummy]⟩

end Sample

theorem ofTokens_spell_shapes :
    Sample.shapes.wellFormed = true ∧
      ∃ body, ofTokens? ((Sample.shapes.spell ⟨true, true⟩).map (⟨·, .dummy⟩)) = .ok body ∧
        (⟨"shapes", body⟩ : CodeUnit).unplaced = Sample.shapes.unplaced := by
  have hwf : Sample.shapes.wellFormed = true := by decide +kernel
  refine ⟨hwf, ofTokens_spell ⟨true, true⟩ Sample.shapes _ hwf ?_⟩
  rw [List.map_map]
  exact List.map_id _

end CodeUnit

end LivePatch
