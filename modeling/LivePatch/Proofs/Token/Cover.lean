/-
What reading a text leaves out. A text that is read to its end is gaps and tokens from the first byte to the
last: each token stands on bytes of its own, on which alone it would be read as well, and between the tokens
there are only gaps. A text that is not read to its end is such a text up to the place of the error.
-/
import LivePatch.Proofs.Token.Written

namespace LivePatch.Token

/-! ## Pieces by themselves -/

theorem take_takeWhile (p : Char → Bool) (cs : List Char) :
    cs.take (cs.takeWhile p).length = cs.takeWhile p :=
  (List.prefix_iff_eq_take.1 (List.takeWhile_prefix p)).symm

theorem takeWhile_takeWhile_self (p : Char → Bool) (cs : List Char) :
    (cs.takeWhile p).takeWhile p = cs.takeWhile p :=
  List.takeWhile_eq_self_iff.2 fun _ => List.mem_takeWhile_imp

/-- A literal that is closed is closed where it ends. -/
theorem literalExtent_take {cs : List Char} (h : (literalExtent cs).1 = true) :
    literalExtent (cs.take (literalExtent cs).2) = literalExtent cs ∧ (literalExtent cs).2 ≤ cs.length := by
  fun_induction literalExtent cs with
  | case1 | case2 | case3 | case6 => cases h
  | case4 c cs hc ih =>
    obtain ⟨htake, hle⟩ := ih h
    refine ⟨?_, Nat.succ_le_succ (Nat.succ_le_succ hle)⟩
    rw [List.take_succ_cons, List.take_succ_cons, literalExtent, if_neg hc, htake]
  | case5 cs => exact ⟨rfl, Nat.succ_le_succ (Nat.zero_le _)⟩
  | case7 c cs hlast hescape hq hn ih =>
    obtain ⟨htake, hle⟩ := ih h
    have hb : c ≠ '\\' := by
      rintro rfl
      cases cs with
      | nil => exact hlast rfl rfl
      | cons d ds => exact hescape d ds rfl rfl
    refine ⟨?_, Nat.succ_le_succ hle⟩
    rw [List.take_succ_cons, literalExtent_cons hb hq hn, htake]

theorem literalFront_take {cs : List Char} {t : Token} {n : Nat} (h : literalFront cs = ⟨.token t, n⟩) :
    literalFront (cs.take n) = ⟨.token t, n⟩ ∧ n ≤ cs.length := by
  unfold literalFront at h ⊢
  dsimp only at h ⊢
  split at h
  · rename_i hclosed
    obtain ⟨htake, hle⟩ := literalExtent_take hclosed
    obtain ⟨hpiece, rfl⟩ := Front.mk.inj h
    refine ⟨?_, hle⟩
    rw [htake, if_pos hclosed, List.take_take, Nat.min_eq_left (Nat.sub_le _ _), hpiece]
  · cases h

theorem sign_atFront?_chars (s : Sign) : Sign.atFront? s.chars = some s := by
  cases s <;> decide

theorem prefix_of_atFront? {cs : List Char} {s : Sign} (h : Sign.atFront? cs = some s) : s.chars <+: cs :=
  List.isPrefixOf_iff_prefix.1 (List.find?_some (p := fun s : Sign => s.chars.isPrefixOf cs) h)

theorem signFront_take {c : Char} {cs : List Char} {t : Token} {n : Nat}
    (h : signFront (c :: cs) = ⟨.token t, n⟩) :
    signFront (c :: cs.take n) = ⟨.token t, n⟩ ∧ n ≤ cs.length := by
  unfold signFront at h
  cases hs : Sign.atFront? (c :: cs) with
  | none => rw [hs] at h; cases h
  | some s =>
    rw [hs] at h
    obtain ⟨hpiece, rfl⟩ := Front.mk.inj h
    have hprefix := prefix_of_atFront? hs
    have hpos : 0 < s.chars.length := by cases s <;> decide
    have htake : c :: cs.take (s.chars.length - 1) = s.chars := by
      rw [← List.take_succ_cons, Nat.sub_add_cancel hpos]
      exact (List.prefix_iff_eq_take.1 hprefix).symm
    have hle := hprefix.length_le
    rw [List.length_cons] at hle
    refine ⟨?_, by omega⟩
    unfold signFront
    rw [htake, sign_atFront?_chars, ← hpiece]

/-- A token is read as the same token when nothing stands behind it. -/
theorem front_take {c : Char} {cs : List Char} {t : Token} {n : Nat} (h : front c cs = ⟨.token t, n⟩) :
    front c (cs.take n) = ⟨.token t, n⟩ ∧ n ≤ cs.length := by
  unfold front at h
  split at h
  · cases h
  rename_i hspace
  split at h
  · rename_i hcomment
    obtain ⟨hpiece, rfl⟩ := Front.mk.inj h
    have hhead : (cs.takeWhile (· ≠ '\n')).head? = some '/' := by
      cases cs with
      | nil => cases hcomment.2
      | cons d ds =>
        cases hcomment.2
        rfl
    refine ⟨?_, (List.takeWhile_prefix _).length_le⟩
    unfold front
    rw [if_neg hspace, take_takeWhile, if_pos ⟨hcomment.1, hhead⟩]
    simp only [takeWhile_takeWhile_self, hpiece]
  rename_i hcomment
  have hcomment' : ∀ n, ¬ (c = '/' ∧ (cs.take n).head? = some '/') := by
    rintro n ⟨hc, hd⟩
    refine hcomment ⟨hc, ?_⟩
    cases n with
    | zero => cases hd
    | succ n => cases cs with
      | nil => cases hd
      | cons d ds => exact hd
  split at h
  · rename_i hdigit
    obtain ⟨hpiece, rfl⟩ := Front.mk.inj h
    refine ⟨?_, (List.takeWhile_prefix _).length_le⟩
    unfold front
    rw [if_neg hspace, if_neg (hcomment' _), if_pos hdigit, take_takeWhile]
    simp only [takeWhile_takeWhile_self, hpiece]
  rename_i hdigit
  split at h
  · rename_i hquote
    obtain ⟨htake, hle⟩ := literalFront_take h
    refine ⟨?_, hle⟩
    unfold front
    rw [if_neg hspace, if_neg (hcomment' _), if_neg hdigit, if_pos hquote, htake]
  rename_i hquote
  split at h
  · rename_i hword
    obtain ⟨hpiece, rfl⟩ := Front.mk.inj h
    refine ⟨?_, (List.takeWhile_prefix _).length_le⟩
    unfold front
    rw [if_neg hspace, if_neg (hcomment' _), if_neg hdigit, if_neg hquote, if_pos hword, take_takeWhile]
    simp only [takeWhile_takeWhile_self, hpiece]
  · rename_i hword
    obtain ⟨htake, hle⟩ := signFront_take h
    refine ⟨?_, hle⟩
    unfold front
    rw [if_neg hspace, if_neg (hcomment' _), if_neg hdigit, if_neg hquote, if_neg hword, htake]

/-- A token by itself is read as this token. -/
theorem scanFrom_alone {c : Char} {cs : List Char} {t : Token} {n : Nat} (h : front c cs = ⟨.token t, n⟩)
    (offset : Nat) : scanFrom offset (c :: cs.take n) =
      .ok [⟨t, .ofOffsets offset (offset + byteLength (c :: cs.take n))⟩] := by
  obtain ⟨htake, hle⟩ := front_take h
  have hlen : (cs.take n).length = n := List.length_take_of_le hle
  rw [scanFrom]
  simp only [htake, List.take_of_length_le (Nat.le_of_eq hlen), List.drop_of_length_le (Nat.le_of_eq hlen), scanFrom,
    Except.map]

/-! ## Skipped pieces -/

theorem commentPiece_skipped {line : List Char} (h : commentPiece ('/' :: line) = .skipped) :
    line.head? ≠ some '/' := by
  cases line with
  | nil => exact nofun
  | cons d ds =>
    rintro hd
    cases hd
    cases h

/-- What is skipped begins with a blank, or is a comment up to the end of its line. -/
theorem front_skipped {c : Char} {cs : List Char} {n : Nat} (h : front c cs = ⟨.skipped, n⟩) :
    isSpace c = true ∨
      ∃ text rest, c = '/' ∧ cs = '/' :: (text ++ rest) ∧ PlainComment text ∧ LineEnd rest := by
  unfold front at h
  split at h
  · exact .inl ‹_›
  split at h
  · rename_i hcomment
    obtain ⟨rfl, hhead⟩ := hcomment
    cases cs with
    | nil => cases hhead
    | cons d ds =>
      cases hhead
      have hpiece := (Front.mk.inj h).1
      rw [List.takeWhile_cons_of_pos (by decide)] at hpiece
      refine .inr ⟨ds.takeWhile (· ≠ '\n'), ds.dropWhile (· ≠ '\n'), rfl, ?_, ⟨?_, ?_⟩, ?_⟩
      · rw [List.takeWhile_append_dropWhile]
      · intro hn
        exact absurd (List.mem_takeWhile_imp hn) (by decide)
      · exact commentPiece_skipped hpiece
      · intro c hc
        have hnot := List.head?_dropWhile_not (· ≠ '\n') ds
        rw [hc] at hnot
        simpa using hnot
  split at h
  · have hpiece := (Front.mk.inj h).1
    unfold Piece.ofToken? at hpiece
    split at hpiece <;> cases hpiece
  split at h
  · unfold literalFront at h
    dsimp only at h
    split at h
    · have hpiece := (Front.mk.inj h).1
      unfold Piece.ofToken? at hpiece
      split at hpiece <;> cases hpiece
    · cases h
  split at h
  · cases h
  · unfold signFront at h
    split at h <;> cases h

/-! ## Texts in pieces -/

/-- Behind `offset` bytes, the text is gaps and the texts of these tokens in turn: in front of each token a
gap, then characters that are this token by themselves and that its span covers, and behind the last token
a text of the given kind. -/
inductive Covered (last : List Char → Prop) : Nat → List Char → List PlacedToken → Prop
  | nil {offset : Nat} {cs : List Char} (h : last cs) : Covered last offset cs []
  | cons {offset : Nat} {gap piece rest : List Char} {t : Token} {tokens : List PlacedToken} (hgap : Gap gap)
      (hne : piece ≠ [])
      (hpiece : scanFrom 0 piece = .ok [⟨t, .ofOffsets 0 (byteLength piece)⟩])
      (hrest : Covered last (offset + byteLength gap + byteLength piece) rest tokens) :
      Covered last offset (gap ++ (piece ++ rest))
        (⟨t, .ofOffsets (offset + byteLength gap) (offset + byteLength gap + byteLength piece)⟩ :: tokens)

theorem Covered.prepend {last : List Char → Prop} (hlast : ∀ {gap cs}, Gap gap → last cs → last (gap ++ cs))
    {offset : Nat} {gap cs : List Char} {tokens : List PlacedToken} (hgap : Gap gap)
    (h : Covered last (offset + byteLength gap) cs tokens) : Covered last offset (gap ++ cs) tokens := by
  cases h with
  | nil h => exact .nil (hlast hgap h)
  | cons hgap' hne hpiece hrest =>
    rw [← List.append_assoc]
    rw [Nat.add_assoc offset, ← byteLength_append] at hrest ⊢
    exact .cons (hgap.append hgap') hne hpiece hrest

/-- What reading a text can come to: the text is read to its end, or up to characters that are no token. -/
def Outcome (offset : Nat) (cs : List Char) : Except ScanError (List PlacedToken) → Prop
  | .ok tokens => Covered LastGap offset cs tokens
  | .error e => ∃ before piece after tokens, cs = before ++ (piece ++ after) ∧ piece ≠ [] ∧
      e = ⟨String.ofList piece, .ofOffsets (offset + byteLength before)
        (offset + byteLength before + byteLength piece)⟩ ∧
      Covered Gap offset before tokens

theorem Outcome.prepend {offset : Nat} {gap cs : List Char} {result : Except ScanError (List PlacedToken)}
    (hgap : Gap gap) (h : Outcome (offset + byteLength gap) cs result) : Outcome offset (gap ++ cs) result := by
  cases result with
  | ok tokens => exact Covered.prepend LastGap.prepend hgap h
  | error e =>
    obtain ⟨before, piece, after, tokens, rfl, hne, rfl, hcover⟩ := h
    refine ⟨gap ++ before, piece, after, tokens, by rw [List.append_assoc], hne, ?_,
      .prepend Gap.append hgap hcover⟩
    rw [byteLength_append, Nat.add_assoc offset]

theorem Outcome.token {offset : Nat} {piece rest : List Char} {t : Token}
    {result : Except ScanError (List PlacedToken)} (hne : piece ≠ [])
    (hpiece : scanFrom 0 piece = .ok [⟨t, .ofOffsets 0 (byteLength piece)⟩])
    (h : Outcome (offset + byteLength piece) rest result) :
    Outcome offset (piece ++ rest)
      (result.map (⟨t, .ofOffsets offset (offset + byteLength piece)⟩ :: ·)) := by
  cases result with
  | ok tokens => exact .cons .nil hne hpiece h
  | error e =>
    obtain ⟨before, piece', after, tokens, rfl, hne', rfl, hcover⟩ := h
    refine ⟨piece ++ before, piece', after, _, by rw [List.append_assoc], hne', ?_, .cons .nil hne hpiece hcover⟩
    rw [byteLength_append, Nat.add_assoc offset]

/-- By recursion on the text: a blank or a comment goes to the gap in front of what follows it. -/
theorem scanFrom_outcome (offset : Nat) (cs : List Char) : Outcome offset cs (scanFrom offset cs) := by
  match cs with
  | [] =>
    rw [scanFrom]
    exact .nil (.gap .nil)
  | c :: cs =>
    cases hfront : front c cs with | mk piece n => ?_
    cases piece with
    | skipped =>
      rcases front_skipped hfront with hc | ⟨text, rest, rfl, hcs, htext, hrest⟩
      · rw [scanFrom_space hc]
        have hgap : Gap [c] := .space hc .nil
        exact .prepend hgap (scanFrom_outcome _ cs)
      · cases rest with
        | nil =>
          have h := front_comment htext hrest
          rw [List.append_nil] at hcs h
          rw [hcs, scanFrom_skipped h, List.drop_succ_cons, List.drop_length, scanFrom]
          exact .nil (.comment .nil htext)
        | cons d rest =>
          obtain rfl := hrest d rfl
          have hshorter : rest.length < ('/' :: cs).length := by
            rw [hcs]
            simp only [List.length_cons, List.length_append]
            omega
          rw [hcs, scanFrom_comment htext]
          have hgap : Gap ('/' :: '/' :: (text ++ ['\n'])) := .comment htext .nil
          have h := Outcome.prepend hgap (scanFrom_outcome (offset + _) rest)
          simpa only [List.cons_append, List.append_assoc, List.nil_append] using h
    | token t =>
      have hpiece := scanFrom_alone hfront 0
      rw [Nat.zero_add] at hpiece
      rw [scanFrom]
      simp only [hfront]
      have h := Outcome.token (List.cons_ne_nil _ _) hpiece (scanFrom_outcome (offset + _) (cs.drop n))
      rwa [List.cons_append, List.take_append_drop] at h
    | unknown =>
      rw [scanFrom]
      simp only [hfront]
      exact ⟨[], c :: cs.take n, cs.drop n, [], by simp, List.cons_ne_nil _ _, rfl, .nil .nil⟩
  termination_by cs.length
  decreasing_by
    · exact Nat.lt_succ_self _
    · exact hshorter
    · exact Nat.lt_succ_of_le (List.drop_sublist ..).length_le

/-! ## Whole texts -/

/-- The span covers exactly the bytes of the second text, when it stands behind the first. -/
def Covers (span : Span) (before text : String) : Prop :=
  span.start.toNat = before.utf8ByteSize ∧ span.stop.toNat = before.utf8ByteSize + text.utf8ByteSize

/-- What the tokens of a text leave out is of the right kind: all of it is gaps, and behind the last token a
text of the given kind. Each token stands behind those before it, on bytes of its own, and reading these
bytes alone gives this one token. -/
structure Accounted (last : List Char → Prop) (source : String) (tokens : List PlacedToken) : Prop where
  covered : Covered last 0 source.toList tokens
  ordered : Ordered 0 source.utf8ByteSize tokens
  alone : ∀ p ∈ tokens, ∃ before text after, source = before ++ text ++ after ∧ Covers p.span before text ∧
    scan text = .ok [⟨p.token, .ofOffsets 0 text.utf8ByteSize⟩]

theorem byteLength_pos {cs : List Char} (h : cs ≠ []) : 0 < byteLength cs := by
  obtain ⟨c, ds, rfl⟩ := List.exists_cons_of_ne_nil h
  exact byteLength_cons_pos c ds

theorem Covered.ordered {last : List Char → Prop} {offset : Nat} {cs : List Char} {tokens : List PlacedToken}
    (h : Covered last offset cs tokens) (hsize : offset + byteLength cs < UInt32.size) :
    Ordered offset (offset + byteLength cs) tokens := by
  induction h with
  | nil => exact ⟨by simp, by simp, by simp, .nil⟩
  | @cons offset gap piece rest t tokens hgap hne hpiece hrest ih =>
    have hpos := byteLength_pos hne
    have hbytes : offset + byteLength (gap ++ (piece ++ rest)) =
        offset + byteLength gap + byteLength piece + byteLength rest := by
      simp only [byteLength_append, Nat.add_assoc]
    rw [hbytes] at hsize ⊢
    exact (Ordered.cons (Nat.lt_add_of_pos_right hpos) (Nat.le_add_right _ _) hsize (ih hsize)).of_le
      (Nat.le_add_right _ _)

theorem byteLength_eq (cs : List Char) : byteLength cs = (String.ofList cs).utf8ByteSize := by
  rw [← byteLength_toList, String.toList_ofList]

/-- Characters behind others, and the span of their offsets. -/
theorem covers_ofOffsets {before piece : List Char} (hsize : byteLength before + byteLength piece < UInt32.size) :
    Covers (.ofOffsets (byteLength before) (byteLength before + byteLength piece)) (String.ofList before)
      (String.ofList piece) := by
  refine ⟨?_, ?_⟩ <;> simp only [← byteLength_eq]
  · exact toNat_clamp (by omega)
  · exact toNat_clamp hsize

theorem Covered.alone {last : List Char → Prop} {offset : Nat} {cs : List Char} {tokens : List PlacedToken}
    (h : Covered last offset cs tokens) (lead : List Char) (hlead : byteLength lead = offset)
    (hsize : offset + byteLength cs < UInt32.size) :
    ∀ p ∈ tokens, ∃ before text after, String.ofList (lead ++ cs) = before ++ text ++ after ∧
      Covers p.span before text ∧ scan text = .ok [⟨p.token, .ofOffsets 0 text.utf8ByteSize⟩] := by
  induction h generalizing lead with
  | nil => simp
  | @cons offset gap piece rest t tokens hgap hne hpiece hrest ih =>
    subst hlead
    simp only [byteLength_append, ← Nat.add_assoc] at hsize
    rintro p (_ | ⟨_, hp⟩)
    · refine ⟨String.ofList (lead ++ gap), String.ofList piece, String.ofList rest, ?_, ?_, ?_⟩
      · simp only [String.ofList_append, String.append_assoc]
      · rw [← byteLength_append]
        exact covers_ofOffsets (by rw [byteLength_append]; omega)
      · unfold scan
        rw [String.toList_ofList, ← byteLength_eq]
        exact hpiece
    · have h := ih (lead ++ gap ++ piece) (by simp only [byteLength_append]) hsize p hp
      simpa only [List.append_assoc] using h

theorem Covered.accounted {last : List Char → Prop} {source : String} {tokens : List PlacedToken}
    (h : Covered last 0 source.toList tokens) (hsize : source.utf8ByteSize < UInt32.size) :
    Accounted last source tokens := by
  have hbytes : 0 + byteLength source.toList = source.utf8ByteSize := by rw [Nat.zero_add, byteLength_toList]
  refine ⟨h, hbytes ▸ h.ordered (by rwa [hbytes]), ?_⟩
  have halone := h.alone [] rfl (by rwa [hbytes])
  rwa [List.nil_append, String.ofList_toList] at halone

/-- Reading a text neither loses nor invents anything. When it succeeds, its tokens account for all of the
text. When it fails, the text of the error stands in the source, its span covers exactly this text, and
everything in front of it is accounted for. -/
theorem scan_accounted (source : String) (hsize : source.utf8ByteSize < UInt32.size) :
    match scan source with
    | .ok tokens => Accounted LastGap source tokens
    | .error e => e.text ≠ "" ∧ ∃ before after tokens, source = before ++ e.text ++ after ∧
        Covers e.span before e.text ∧ Accounted Gap before tokens := by
  have h := scanFrom_outcome 0 source.toList
  unfold scan
  cases hresult : scanFrom 0 source.toList with
  | ok tokens =>
    rw [hresult] at h
    exact Covered.accounted h hsize
  | error e =>
    rw [hresult] at h
    obtain ⟨before, piece, after, tokens, hcs, hne, rfl, hcover⟩ := h
    obtain rfl : source = String.ofList (before ++ (piece ++ after)) := by rw [← hcs, String.ofList_toList]
    rw [← byteLength_eq] at hsize
    simp only [byteLength_append, ← Nat.add_assoc] at hsize
    rw [Nat.zero_add]
    refine ⟨fun hempty => hne (String.ofList_injective hempty),
      String.ofList before, String.ofList after, tokens, ?_, covers_ofOffsets (by omega), ?_⟩
    · simp only [String.ofList_append, String.append_assoc]
    · refine Covered.accounted (by rwa [String.toList_ofList]) ?_
      rw [← byteLength_eq]
      omega

namespace Sample

/-- A comment, a doc comment, and characters of several bytes. -/
def noted : String := "// é\n/// ü\nlet s = \"é\""

def notedTokens : List PlacedToken := [
  ⟨.doc "ü", .ofOffsets 6 12⟩, ⟨.keyword .bind, .ofOffsets 13 16⟩, ⟨.ident "s", .ofOffsets 17 18⟩,
  ⟨.sign .equal, .ofOffsets 19 20⟩, ⟨.str "é", .ofOffsets 21 25⟩]

/-- A literal that is not closed, behind a comment. -/
def unclosed : String := "1 // é\n\"é"

end Sample

theorem scan_accounted_samples :
    (scan Sample.noted = .ok Sample.notedTokens ∧ Accounted LastGap Sample.noted Sample.notedTokens) ∧
    ∃ before after tokens, scan Sample.unclosed = .error ⟨"\"é", .ofOffsets 8 11⟩ ∧
      Sample.unclosed = before ++ "\"é" ++ after ∧ Covers (.ofOffsets 8 11) before "\"é" ∧
      Accounted Gap before tokens := by
  have hnoted : scan Sample.noted = .ok Sample.notedTokens := by decide +kernel
  have hunclosed : scan Sample.unclosed = .error ⟨"\"é", .ofOffsets 8 11⟩ := by decide +kernel
  have haccounted := scan_accounted Sample.noted (by decide +kernel)
  have hfail := scan_accounted Sample.unclosed (by decide +kernel)
  rw [hnoted] at haccounted
  rw [hunclosed] at hfail
  obtain ⟨-, before, after, tokens, hsplit, hcovers, hbefore⟩ := hfail
  exact ⟨⟨hnoted, haccounted⟩, before, after, tokens, hunclosed, hsplit, hcovers, hbefore⟩

end LivePatch.Token
