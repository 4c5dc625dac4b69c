/-
Where faults are shown. A fault in a source text is about characters that stand in the text: those that are
no token, a token, or the tokens of an expression. Its place begins where these begin, so that the line and
the column of the place lead back to them and to nothing else.
-/
import LivePatch.Proofs.Syntax.Places
import LivePatch.Proofs.Text.Position
import LivePatch.Proofs.Token.Cover

namespace LivePatch

open PlacedToken (cover)

/-- The token is read on characters of its own, which stand behind `before` and which its span covers. -/
def PlacedToken.BeginsBehind (source before : String) (p : PlacedToken) : Prop :=
  ∃ text after, source = before ++ text ++ after ∧ Token.Covers p.span before text ∧
    Token.scan text = .ok [⟨p.token, .ofOffsets 0 text.utf8ByteSize⟩]

/-- What a fault is about begins behind `before`: the characters that are no token, the token that was not
expected, the name of a parameter that lacks a default, or the first token of an expression that stands in
front of the sign of assignment and cannot be assigned to. -/
inductive SyntaxError.BeginsBehind (source before : String) : SyntaxError → Prop
  | scan {e : ScanError} {after : String} (hne : e.text ≠ "") (hs : source = before ++ e.text ++ after)
      (hc : Token.Covers e.span before e.text) : BeginsBehind source before (.scan e)
  | unexpected {tokens : List PlacedToken} {expected : Expectation} {found : PlacedToken}
      (hscan : Token.scan source = .ok tokens) (hmem : found ∈ tokens)
      (hfound : found.BeginsBehind source before) : BeginsBehind source before (.unexpected expected found)
  | defaultOrder {tokens : List PlacedToken} {x : Name} {s : Span} (hscan : Token.scan source = .ok tokens)
      (hmem : ⟨.ident x, s⟩ ∈ tokens) (hname : (⟨.ident x, s⟩ : PlacedToken).BeginsBehind source before) :
      BeginsBehind source before (.defaultOrder x s)
  | assignTarget {front ts rest : List PlacedToken} {equal first : PlacedToken} {target : Expr}
      (hscan : Token.scan source = .ok (front ++ (ts ++ equal :: rest))) (ht : Expr.From ts target)
      (htarget : target.isTarget = false) (hequal : equal.token = .sign .equal)
      (hhead : ts.head? = some first) (hfirst : first.BeginsBehind source before) :
      BeginsBehind source before (.assignTarget target.span)

/-- Tokens account for the whole of a text that is read to its end. -/
theorem Token.accounted_of_scan {source : String} {tokens : List PlacedToken}
    (hsize : source.utf8ByteSize < UInt32.size) (h : scan source = .ok tokens) :
    Accounted LastGap source tokens := by
  have hcome := scanFrom_outcome 0 source.toList
  rw [show scanFrom 0 source.toList = .ok tokens from h] at hcome
  exact Covered.accounted hcome hsize

namespace SyntaxError

variable {source before origin : String} {e : SyntaxError} {s : Span}

/-- The characters that are no token stand where the fault says. -/
theorem begins_of_scan {e : ScanError} (hsize : source.utf8ByteSize < UInt32.size)
    (h : Token.scan source = .error e) :
    ∃ before, BeginsBehind source before (.scan e) ∧ e.span.start.toNat = before.utf8ByteSize := by
  have hcome := Token.scanFrom_outcome 0 source.toList
  rw [show Token.scanFrom 0 source.toList = .error e from h] at hcome
  obtain ⟨before, piece, after, -, hcs, hne, rfl, -⟩ := hcome
  obtain rfl : source = String.ofList (before ++ (piece ++ after)) := by rw [← hcs, String.ofList_toList]
  rw [← Token.byteLength_eq] at hsize
  simp only [Token.byteLength_append, ← Nat.add_assoc] at hsize
  rw [Nat.zero_add]
  have hcovers : Token.Covers _ (String.ofList before) (String.ofList piece) :=
    Token.covers_ofOffsets (by omega)
  have hsource : String.ofList (before ++ (piece ++ after)) =
      String.ofList before ++ String.ofList piece ++ String.ofList after := by
    simp only [String.ofList_append, String.append_assoc]
  exact ⟨_, .scan (fun hempty => hne (String.ofList_injective hempty)) hsource hcovers, hcovers.1⟩

/-- A fault of reading tokens is about some that were passed, and stands at those that are left. -/
theorem blames_of_ofTokens? {tokens : List PlacedToken} (h : CodeUnit.ofTokens? tokens = .error e) :
    ∃ passed rest, tokens = passed ++ rest ∧ e.Blames passed ∧ e.Stands rest := by
  have hpass := Passes.untilEnd (L := Part.From .items) (Passes.statement (tokens.length + 1)) .nil .cons
    (tokens.length + 1) .dummy
  unfold CodeUnit.ofTokens? at h
  dsimp only at h
  split at h
  · cases h
  · rename_i hrun
    cases h
    obtain ⟨passed, htokens, hblames⟩ := hpass.blames_of_error hrun
    exact ⟨passed, _, htokens, hblames, (hpass.of_error hrun).2⟩

/-- In a text with fewer bytes than a 32-bit offset can count, the place of a fault begins where the
characters begin that the fault is about. -/
theorem begins_of_parse (hsize : source.utf8ByteSize < UInt32.size)
    (h : CodeUnit.parse source origin = .error e) (hs : e.span? = some s) :
    ∃ before, e.BeginsBehind source before ∧ s.start.toNat = before.utf8ByteSize := by
  unfold CodeUnit.parse at h
  split at h
  · rename_i hscan
    cases h
    cases hs
    exact begins_of_scan hsize hscan
  · rename_i tokens hscan
    have haccounted := Token.accounted_of_scan hsize hscan
    have hbegin : ∀ p ∈ tokens, ∃ before, p.BeginsBehind source before ∧
        p.span.start.toNat = before.utf8ByteSize := fun p hp => by
      obtain ⟨before, text, after, hsource, hcovers, halone⟩ := haccounted.alone p hp
      exact ⟨before, ⟨text, after, hsource, hcovers, halone⟩, hcovers.1⟩
    obtain ⟨passed, rest, rfl, hblames, hstands⟩ := blames_of_ofTokens? (except_map_eq_error h)
    cases e with
    | scan e => cases hstands
    | endOfInput expected => cases hs
    | unexpected expected found =>
      cases hs
      have hmem := List.mem_append_right passed (List.mem_of_head? hstands)
      obtain ⟨before, hfound, hstart⟩ := hbegin found hmem
      exact ⟨before, .unexpected hscan hmem hfound, hstart⟩
    | defaultOrder x s =>
      cases hs
      obtain ⟨front, rfl⟩ := hblames
      have hmem : ⟨.ident x, s⟩ ∈ front ++ [⟨.ident x, s⟩] ++ rest := by simp
      obtain ⟨before, hname, hstart⟩ := hbegin _ hmem
      exact ⟨before, .defaultOrder hscan hmem hname, hstart⟩
    | assignTarget s =>
      cases hs
      obtain ⟨front, ts, equal, target, rfl, ht, hequal, htarget, rfl⟩ := hblames
      have hsplit : front ++ (ts ++ [equal]) ++ rest = front ++ (ts ++ equal :: rest) := by simp
      rw [hsplit] at hscan haccounted hbegin
      obtain ⟨first, last, hhead, -, hcover⟩ := PlacedToken.cover_eq ht.ne_nil
      obtain ⟨before, hfirst, hstart⟩ := hbegin first
        (List.mem_append_right _ (List.mem_append_left _ (List.mem_of_head? hhead)))
      refine ⟨before, .assignTarget hscan ht htarget hequal hhead hfirst, ?_⟩
      rw [ht.span_eq haccounted.ordered.right.left, hcover]
      exact hstart

theorem BeginsBehind.boundary (h : e.BeginsBehind source before) :
    Position.Boundary source before.utf8ByteSize := by
  have hsource : ∃ text after, source = before ++ text ++ after := by
    cases h with
    | scan _ hs _ => exact ⟨_, _, hs⟩
    | unexpected _ _ hp | defaultOrder _ _ hp | assignTarget _ _ _ _ _ hp =>
      obtain ⟨text, after, hs, -⟩ := hp
      exact ⟨text, after, hs⟩
  obtain ⟨text, after, hs⟩ := hsource
  exact ⟨before, text ++ after, by rw [hs, String.append_assoc], rfl⟩

end SyntaxError

/-- At the boundaries between characters, positions are in the order of their offsets, each stands for one
offset, and walking to it arrives there; an offset behind the end has the position of the end. In a text with
fewer bytes than a 32-bit offset can count, the place of every fault of parsing begins at such a boundary,
where the characters begin that the fault is about, and walking to its position arrives at these. -/
theorem Position.ofOffset_identifies (source : String) :
    (∀ m n, Boundary source m → Boundary source n →
      (m < n ↔ (ofOffset source m).Before (ofOffset source n))) ∧
    (∀ m n, Boundary source m → Boundary source n → ofOffset source m = ofOffset source n → m = n) ∧
    (∀ p n, walk source p = some n ↔ Boundary source n ∧ ofOffset source n = p) ∧
    (∀ offset, source.utf8ByteSize ≤ offset →
      ofOffset source offset = ofOffset source source.utf8ByteSize) ∧
    (source.utf8ByteSize < UInt32.size → ∀ origin e s, CodeUnit.parse source origin = .error e →
      e.span? = some s → Boundary source s.start.toNat ∧ ∃ before, e.BeginsBehind source before ∧
        s.start.toNat = before.utf8ByteSize ∧
        walk source (ofOffset source s.start.toNat) = some before.utf8ByteSize) := by
  refine ⟨fun m n => Boundary.lt_iff, fun m n => Boundary.eq_of_ofOffset_eq, fun p n => walk_eq_some_iff,
    fun offset h => ?_, fun hsize origin e s h hs => ?_⟩
  · rw [ofOffset_end h, ofOffset_end (Nat.le_refl _)]
  · obtain ⟨before, hbegins, hstart⟩ := SyntaxError.begins_of_parse hsize h hs
    rw [hstart]
    exact ⟨hbegins.boundary, before, hbegins, rfl, walk_eq_some_iff.2 ⟨hbegins.boundary, rfl⟩⟩

namespace Sample

/-- An assignment to a sum, behind a line that ends in a character of two bytes. -/
def misassigned : String := "\"é\"\nx + 1 = 2"

end Sample

theorem Position.ofOffset_identifies_misassigned :
    Sample.misassigned.utf8ByteSize < UInt32.size ∧
      CodeUnit.parse Sample.misassigned "m" = .error (.assignTarget ⟨5, 10⟩) ∧
      ofOffset Sample.misassigned 5 = ⟨2, 1⟩ ∧ walk Sample.misassigned ⟨2, 1⟩ = some 5 ∧
      ∃ before, (SyntaxError.assignTarget ⟨5, 10⟩).BeginsBehind Sample.misassigned before ∧
        before.utf8ByteSize = 5 := by
  have hsize : Sample.misassigned.utf8ByteSize < UInt32.size := by decide +kernel
  have hparse : CodeUnit.parse Sample.misassigned "m" = .error (.assignTarget ⟨5, 10⟩) := by
    have herror : (match CodeUnit.parse Sample.misassigned "m" with
        | .error e => some e
        | .ok _ => none) = some (.assignTarget ⟨5, 10⟩) := by decide +kernel
    cases hp : CodeUnit.parse Sample.misassigned "m" with
    | ok u =>
      rw [hp] at herror
      cases herror
    | error e =>
      rw [hp] at herror
      cases herror
      rfl
  have hposition : ofOffset Sample.misassigned 5 = ⟨2, 1⟩ := by decide +kernel
  obtain ⟨-, -, hwalk, -, hfault⟩ := ofOffset_identifies Sample.misassigned
  obtain ⟨hboundary, before, hbegins, hstart, -⟩ := hfault hsize "m" _ _ hparse rfl
  exact ⟨hsize, hparse, hposition, (hwalk _ _).2 ⟨hboundary, hposition⟩, before, hbegins, hstart.symm⟩

end LivePatch
