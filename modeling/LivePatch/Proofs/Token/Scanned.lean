/-
What a text is cut into. A text that is read to its end is a sequence of pieces, and its tokens are those
of the pieces, each with the place of its piece. So what holds of the token of every piece holds of every
token, and tokens stand in the text one behind the other.
-/
import Mathlib.Data.List.DropRight
import LivePatch.Proofs.Sequence
import LivePatch.Syntax.Spelling

namespace LivePatch

namespace Token

/-- What can be written down as a token: a doc text is a trimmed line, an integer has no sign, and an
identifier is none of the keywords. -/
def wellFormed : Token → Bool
  | doc text => text.toList.all (· ≠ '\n') && Text.trim text.toList = text.toList
  | int n => 0 ≤ n
  | ident x => Spelling.isIdentifier x
  | keyword _ | sign _ | str _ => true

/-- Behind `offset` bytes, the text is a sequence of pieces, of which these are the tokens. -/
inductive Scanned : Nat → List Char → List PlacedToken → Prop
  | nil {offset : Nat} : Scanned offset [] []
  | skipped {offset : Nat} {c : Char} {cs : List Char} {tokens : List PlacedToken}
      (hpiece : (front c cs).piece = .skipped)
      (hrest : Scanned (offset + byteLength (c :: cs.take (front c cs).extra)) (cs.drop (front c cs).extra)
        tokens) : Scanned offset (c :: cs) tokens
  | token {offset : Nat} {c : Char} {cs : List Char} {t : Token} {tokens : List PlacedToken}
      (hpiece : (front c cs).piece = .token t)
      (hrest : Scanned (offset + byteLength (c :: cs.take (front c cs).extra)) (cs.drop (front c cs).extra)
        tokens) :
      Scanned offset (c :: cs)
        (⟨t, .ofOffsets offset (offset + byteLength (c :: cs.take (front c cs).extra))⟩ :: tokens)

theorem scanned_of_scanFrom {offset : Nat} {cs : List Char} {tokens : List PlacedToken}
    (h : scanFrom offset cs = .ok tokens) : Scanned offset cs tokens := by
  match cs with
  | [] =>
    rw [scanFrom] at h
    cases h
    exact .nil
  | c :: cs =>
    rw [scanFrom] at h
    cases hpiece : (front c cs).piece with
    | skipped =>
      simp only [hpiece] at h
      exact .skipped hpiece (scanned_of_scanFrom h)
    | token t =>
      simp only [hpiece] at h
      obtain ⟨rest, hrest, rfl⟩ := except_map_eq_ok h
      exact .token hpiece (scanned_of_scanFrom hrest)
    | unknown =>
      simp only [hpiece] at h
      cases h
  termination_by cs.length
  decreasing_by all_goals (simp only [List.length_drop, List.length_cons]; omega)

theorem scanned_of_scan {source : String} {tokens : List PlacedToken} (h : scan source = .ok tokens) :
    Scanned 0 source.toList tokens := scanned_of_scanFrom h

/-! ## The token of a piece -/

theorem trim_sublist (cs : List Char) : (Text.trim cs).Sublist cs :=
  (List.rdropWhile_prefix Text.isBlank (cs.dropWhile Text.isBlank)).sublist.trans (List.dropWhile_sublist _)

theorem trim_trim (cs : List Char) : Text.trim (Text.trim cs) = Text.trim cs := by
  -- what is left begins like the text without the blanks at its front
  have hfront : (Text.trim cs).dropWhile Text.isBlank = Text.trim cs := by
    refine List.dropWhile_eq_self_iff.2 fun hl => ?_
    have hp : Text.trim cs <+: cs.dropWhile Text.isBlank := List.rdropWhile_prefix ..
    rw [hp.getElem hl]
    exact List.dropWhile_get_zero_not Text.isBlank cs (Nat.lt_of_lt_of_le hl hp.length_le)
  show List.rdropWhile _ ((Text.trim cs).dropWhile _) = _
  rw [hfront]
  exact List.rdropWhile_idempotent ..

theorem wellFormed_of_ofDigits? {cs : List Char} {t : Token} (h : ofDigits? cs = some t) :
    t.wellFormed = true := by
  have hmax : Int64.maxValue.toInt.toNat = 2 ^ 63 - 1 := by decide
  unfold ofDigits? at h
  split at h
  · cases h
    refine decide_eq_true ?_
    rw [Int64.le_iff_toInt_le, Int64.toInt_ofNat_of_lt (by omega)]
    exact Int.natCast_nonneg _
  · cases h

theorem wellFormed_ofWord {c : Char} {cs : List Char} (hc : startsName c = true)
    (hcs : cs.all continuesName = true) : (ofWord (c :: cs)).wellFormed = true := by
  unfold ofWord
  cases hk : Keyword.ofSpelling? (String.ofList (c :: cs)) with
  | some k => rfl
  | none =>
    show Spelling.isIdentifier _ = true
    unfold Spelling.isIdentifier
    rw [String.toList_ofList]
    simp only [hc, hcs, hk, Bool.true_and, Option.isNone_none]

theorem wellFormed_of_commentPiece {line : List Char} {t : Token} (hline : line.all (· ≠ '\n') = true)
    (h : commentPiece line = .token t) : t.wellFormed = true := by
  unfold commentPiece at h
  split at h
  · rename_i text
    cases h
    have htext : text.all (· ≠ '\n') = true := by
      rw [List.all_cons, List.all_cons, Bool.and_eq_true, Bool.and_eq_true] at hline
      exact hline.2.2
    show ((String.ofList _).toList.all _ && decide (Text.trim (String.ofList _).toList = _)) = true
    rw [String.toList_ofList, trim_trim, decide_eq_true rfl, Bool.and_true, List.all_eq_true]
    exact fun c hc => List.all_eq_true.1 htext c ((trim_sublist text).subset hc)
  · cases h

theorem Piece.eq_of_ofToken? {o : Option Token} {t : Token} (h : ofToken? o = .token t) : o = some t := by
  cases o <;> cases h
  rfl

theorem wellFormed_of_literalFront {cs : List Char} {t : Token} (h : (literalFront cs).piece = .token t) :
    t.wellFormed = true := by
  unfold literalFront at h
  dsimp only at h
  split at h
  · obtain ⟨text, -, rfl⟩ := Option.map_eq_some_iff.1 (Piece.eq_of_ofToken? h)
    rfl
  · cases h

theorem wellFormed_of_signFront {cs : List Char} {t : Token} (h : (signFront cs).piece = .token t) :
    t.wellFormed = true := by
  unfold signFront at h
  split at h <;> cases h
  rfl

theorem wellFormed_of_front {c : Char} {cs : List Char} {t : Token} (h : (front c cs).piece = .token t) :
    t.wellFormed = true := by
  unfold front at h
  split at h
  · cases h
  split at h
  · exact wellFormed_of_commentPiece List.all_takeWhile h
  split at h
  · exact wellFormed_of_ofDigits? (Piece.eq_of_ofToken? h)
  split at h
  · exact wellFormed_of_literalFront h
  split at h
  · cases h
    exact wellFormed_ofWord ‹_› List.all_takeWhile
  · exact wellFormed_of_signFront h

/-- The tokens of a text can be written down. -/
theorem Scanned.wellFormed {offset : Nat} {cs : List Char} {tokens : List PlacedToken}
    (h : Scanned offset cs tokens) : ∀ p ∈ tokens, p.token.wellFormed = true := by
  induction h with
  | nil => simp
  | skipped _ _ ih => exact ih
  | token hpiece _ ih => simpa using ⟨wellFormed_of_front hpiece, ih⟩

/-! ## The places of tokens -/

theorem byteLength_append (cs ds : List Char) : byteLength (cs ++ ds) = byteLength cs + byteLength ds := by
  induction cs with
  | nil => simp [byteLength]
  | cons c cs ih => simp [byteLength, ih, Nat.add_assoc]

/-- A piece and what is behind it. -/
theorem byteLength_split (c : Char) (cs : List Char) (n : Nat) :
    byteLength (c :: cs) = byteLength (c :: cs.take n) + byteLength (cs.drop n) := by
  rw [← byteLength_append, List.cons_append, List.take_append_drop]

theorem byteLength_cons_pos (c : Char) (cs : List Char) : 0 < byteLength (c :: cs) :=
  Nat.add_pos_left c.utf8Size_pos _

theorem byteLength_toList (s : String) : byteLength s.toList = s.utf8ByteSize := by
  have hlist : ∀ cs : List Char, byteLength cs = (String.ofList cs).utf8ByteSize := by
    intro cs
    induction cs with
    | nil => rfl
    | cons c cs ih =>
      rw [byteLength, ih, String.ofList_cons, String.utf8ByteSize_append, String.utf8ByteSize_singleton]
  rw [hlist, String.ofList_toList]

/-- Tokens that stand one behind the other between two offsets, each on some bytes of its own. -/
structure Ordered (start stop : Nat) (tokens : List PlacedToken) : Prop where
  above : ∀ p ∈ tokens, start ≤ p.span.start.toNat
  nonempty : ∀ p ∈ tokens, p.span.start < p.span.stop
  below : ∀ p ∈ tokens, p.span.stop.toNat ≤ stop
  apart : tokens.Pairwise fun p q => p.span.stop ≤ q.span.start

theorem toNat_clamp {offset : Nat} (h : offset < UInt32.size) : (Span.clamp offset).toNat = offset := by
  unfold Span.clamp
  rw [if_pos h]
  exact UInt32.toNat_ofNat_of_lt h

theorem Ordered.of_le {start start' stop : Nat} {tokens : List PlacedToken} (h : Ordered start stop tokens)
    (hle : start' ≤ start) : Ordered start' stop tokens :=
  ⟨fun p hp => Nat.le_trans hle (h.above p hp), h.nonempty, h.below, h.apart⟩

theorem Ordered.cons {start mid stop : Nat} {t : Token} {tokens : List PlacedToken} (hlt : start < mid)
    (hle : mid ≤ stop) (hstop : stop < UInt32.size) (h : Ordered mid stop tokens) :
    Ordered start stop (⟨t, .ofOffsets start mid⟩ :: tokens) := by
  have hstart : (Span.ofOffsets start mid).start.toNat = start := toNat_clamp (by omega)
  have hmid : (Span.ofOffsets start mid).stop.toNat = mid := toNat_clamp (by omega)
  constructor
  · rintro p (_ | ⟨_, hp⟩)
    · exact Nat.le_of_eq hstart.symm
    · exact Nat.le_trans (Nat.le_of_lt hlt) (h.above p hp)
  · rintro p (_ | ⟨_, hp⟩)
    · exact UInt32.lt_iff_toNat_lt.2 (by rwa [hstart, hmid])
    · exact h.nonempty p hp
  · rintro p (_ | ⟨_, hp⟩)
    · exact Nat.le_trans (Nat.le_of_eq hmid) hle
    · exact h.below p hp
  · refine List.pairwise_cons.2 ⟨fun p hp => UInt32.le_iff_toNat_le.2 ?_, h.apart⟩
    exact Nat.le_trans (Nat.le_of_eq hmid) (h.above p hp)

/-- In a text that is not too long for 32-bit offsets, tokens stand one behind the other. -/
theorem Scanned.ordered {offset : Nat} {cs : List Char} {tokens : List PlacedToken}
    (h : Scanned offset cs tokens) (hsize : offset + byteLength cs < UInt32.size) :
    Ordered offset (offset + byteLength cs) tokens := by
  induction h with
  | nil => exact ⟨by simp, by simp, by simp, .nil⟩
  | @skipped offset c cs tokens hpiece hrest ih =>
    have hsplit := byteLength_split c cs (front c cs).extra
    rw [hsplit, ← Nat.add_assoc] at hsize ⊢
    exact (ih hsize).of_le (Nat.le_add_right _ _)
  | @token offset c cs t tokens hpiece hrest ih =>
    have hsplit := byteLength_split c cs (front c cs).extra
    have hpos := byteLength_cons_pos c (cs.take (front c cs).extra)
    rw [hsplit, ← Nat.add_assoc] at hsize ⊢
    exact .cons (Nat.lt_add_of_pos_right hpos) (Nat.le_add_right _ _) hsize (ih hsize)

end Token

end LivePatch
