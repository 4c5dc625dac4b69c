/-
Tokens written out. Every token that can be written down has a text of its own, and a newline behind it is
enough to keep it apart from the token that comes next: reading the texts of some tokens, with any gaps that
begin with a newline between them, gives back these tokens, each on the bytes of its text.
-/
import LivePatch.Proofs.Token.Gap

namespace LivePatch.Token

/-! ## The text of a token -/

/-- A character as it is written in a string literal. -/
def writtenChar (c : Char) : List Char :=
  if c = '\n' then ['\\', 'n']
  else if c = '\t' then ['\\', 't']
  else if c = '\\' then ['\\', '\\']
  else if c = '"' then ['\\', '"']
  else [c]

/-- The text of a token. -/
def written : Token → List Char
  | doc text => '/' :: '/' :: '/' :: text.toList
  | keyword k => k.spelling.toList
  | sign s => s.chars
  | int n => Nat.toDigits 10 n.toNatClampNeg
  | str text => '"' :: (text.toList.flatMap writtenChar ++ ['"'])
  | ident x => x.toList

/-! ## Comments -/

theorem front_doc {text : String} (htext : (doc text).wellFormed = true) {rest : List Char} (h : LineEnd rest) :
    front '/' ('/' :: '/' :: (text.toList ++ rest)) = ⟨.token (doc text), text.toList.length + 2⟩ := by
  simp only [wellFormed, Bool.and_eq_true, List.all_eq_true, decide_eq_true_eq] at htext
  have hline : ('/' :: '/' :: (text.toList ++ rest)).takeWhile (· ≠ '\n') = '/' :: '/' :: text.toList := by
    refine h.takeWhile (by decide) ('/' :: '/' :: text.toList) fun x hx => decide_eq_true ?_
    rcases List.mem_cons.1 hx with rfl | hx
    · decide
    · rcases List.mem_cons.1 hx with rfl | hx
      · decide
      · exact htext.1 x hx
  unfold front
  rw [if_neg (by decide), if_pos ⟨rfl, rfl⟩]
  simp only [hline, commentPiece, htext.2, String.ofList_toList, List.length_cons]

/-! ## Words -/

theorem ne_of_startsName {c d : Char} (hc : startsName c = true) (hd : startsName d = false) : c ≠ d := by
  rintro rfl
  rw [hc] at hd
  cases hd

theorem not_isSpace_of_startsName {c : Char} (hc : startsName c = true) : ¬ isSpace c = true := by
  intro hs
  simp only [isSpace, Bool.or_eq_true, decide_eq_true_eq] at hs
  rcases hs with (((rfl | rfl) | rfl) | rfl) | rfl <;> revert hc <;> decide

theorem not_isDigit_of_startsName {c : Char} (hc : startsName c = true) : ¬ isDigit c = true := by
  intro hd
  simp only [startsName, isDigit, Bool.or_eq_true, Bool.and_eq_true, decide_eq_true_eq, Char.le_def,
    UInt32.le_iff_toNat_le] at hc hd
  rcases hc with (hc | hc) | rfl
  · have h₁ : 'A'.val.toNat = 65 := rfl
    have h₂ : '9'.val.toNat = 57 := rfl
    omega
  · have h₁ : 'a'.val.toNat = 97 := rfl
    have h₂ : '9'.val.toNat = 57 := rfl
    omega
  · exact absurd hd.2 (by decide)

theorem front_word {c : Char} {cs rest : List Char} (hc : startsName c = true)
    (hcs : ∀ d ∈ cs, continuesName d = true) (h : LineEnd rest) :
    front c (cs ++ rest) = ⟨.token (ofWord (c :: cs)), cs.length⟩ := by
  unfold front
  rw [if_neg (not_isSpace_of_startsName hc), if_neg fun hslash => ne_of_startsName hc (by decide) hslash.1,
    if_neg (not_isDigit_of_startsName hc), if_neg (ne_of_startsName hc (by decide)), if_pos hc]
  simp only [h.takeWhile (p := continuesName) (by decide) cs hcs]

theorem front_keyword (k : Keyword) : ∃ c cs, k.spelling.toList = c :: cs ∧ startsName c = true ∧
    (∀ d ∈ cs, continuesName d = true) ∧ ofWord (c :: cs) = keyword k := by
  cases k <;> exact ⟨_, _, rfl, by decide, List.all_eq_true.1 (by decide), by decide⟩

/-! ## Digits -/

theorem decimal_eq_ofDigitChars {cs : List Char} (h : '_' ∉ cs) : decimal cs = Nat.ofDigitChars 10 cs 0 := by
  have hfilter : cs.filter (· ≠ '_') = cs :=
    List.filter_eq_self.2 fun c hc => decide_eq_true fun he => h (he ▸ hc)
  unfold decimal
  rw [hfilter, Nat.ofDigitChars_eq_foldl]

theorem isDigit_of_mem_toDigits {n : Nat} {c : Char} (h : c ∈ Nat.toDigits 10 n) : isDigit c = true := by
  have hd := Nat.isDigit_of_mem_toDigits (by decide) (by decide) h
  simpa [Char.isDigit, isDigit, Char.le_def] using hd

theorem ofDigits?_toDigits {n : Int64} (hn : 0 ≤ n) :
    ofDigits? (Nat.toDigits 10 n.toNatClampNeg) = some (int n) := by
  have hlt := n.toNatClampNeg_lt
  have hmax : Int64.maxValue.toInt.toNat = 2 ^ 63 - 1 := by decide
  unfold ofDigits?
  rw [decimal_eq_ofDigitChars Nat.underscore_not_in_toDigits, Nat.ofDigitChars_ten_toDigits, if_pos (by omega),
    n.ofNat_toNatClampNeg hn]

theorem front_digits {c : Char} {cs rest : List Char} (hcs : ∀ d ∈ c :: cs, isDigit d = true)
    (h : LineEnd rest) : front c (cs ++ rest) = ⟨.ofToken? (ofDigits? (c :: cs)), cs.length⟩ := by
  have hc := hcs c (List.mem_cons_self ..)
  have hspace : ¬ isSpace c = true := by
    intro hs
    simp only [isSpace, Bool.or_eq_true, decide_eq_true_eq] at hs
    rcases hs with (((rfl | rfl) | rfl) | rfl) | rfl <;> revert hc <;> decide
  have hslash : c ≠ '/' := by
    rintro rfl
    revert hc
    decide
  have htake : (cs ++ rest).takeWhile (fun d => isDigit d || d = '_') = cs :=
    h.takeWhile (by decide) cs fun d hd => by rw [hcs d (List.mem_cons_of_mem _ hd), Bool.true_or]
  unfold front
  rw [if_neg hspace, if_neg fun hs => hslash hs.1, if_pos hc]
  simp only [htake]

/-! ## String literals -/

theorem literalExtent_cons {c : Char} (hb : c ≠ '\\') (hq : c ≠ '"') (hn : c ≠ '\n') (cs : List Char) :
    literalExtent (c :: cs) = ((literalExtent cs).1, (literalExtent cs).2 + 1) := by
  rw [literalExtent, if_neg hq, if_neg hn]
  all_goals simp [hb]

/-- A written character is passed over by the search for the closing quote. -/
theorem literalExtent_writtenChar (c : Char) (cs : List Char) :
    literalExtent (writtenChar c ++ cs) =
      ((literalExtent cs).1, (literalExtent cs).2 + (writtenChar c).length) := by
  unfold writtenChar
  repeat' split
  · rfl
  · rfl
  · rfl
  · rfl
  · exact literalExtent_cons ‹_› ‹_› ‹_› cs

theorem literalExtent_written (text rest : List Char) :
    literalExtent (text.flatMap writtenChar ++ '"' :: rest) = (true, (text.flatMap writtenChar).length + 1) := by
  induction text with
  | nil => rfl
  | cons c text ih =>
    rw [List.flatMap_cons, List.append_assoc, literalExtent_writtenChar, ih, List.length_append]
    exact Prod.ext rfl (by dsimp only; omega)

theorem unescape?_cons {c : Char} (hb : c ≠ '\\') (cs : List Char) :
    unescape? (c :: cs) = (unescape? cs).map (c :: ·) := by
  rw [unescape?]
  all_goals simp [hb]

/-- A written character stands for itself. -/
theorem unescape?_writtenChar (c : Char) (cs : List Char) :
    unescape? (writtenChar c ++ cs) = (unescape? cs).map (c :: ·) := by
  unfold writtenChar
  repeat' split
  all_goals first
    | exact unescape?_cons ‹_› cs
    | subst c; cases h : unescape? cs <;> simp [unescape?, escaped?, h]

theorem unescape?_written (text : List Char) : unescape? (text.flatMap writtenChar) = some text := by
  induction text with
  | nil => rfl
  | cons c text ih => rw [List.flatMap_cons, unescape?_writtenChar, ih, Option.map_some]

theorem front_str (text : String) (rest : List Char) :
    front '"' (text.toList.flatMap writtenChar ++ '"' :: rest) =
      ⟨.token (str text), (text.toList.flatMap writtenChar).length + 1⟩ := by
  unfold front
  rw [if_neg (by decide), if_neg fun hs => absurd hs.1 (by decide), if_neg (by decide), if_pos rfl]
  unfold literalFront
  simp only [literalExtent_written, if_true, Nat.add_sub_cancel, List.take_left, unescape?_written,
    Option.map_some, String.ofList_toList, Piece.ofToken?]

/-! ## Signs -/

theorem front_sign (s : Sign) {rest : List Char} (h : LineEnd rest) :
    ∃ c cs, s.chars = c :: cs ∧ front c (cs ++ rest) = ⟨.token (sign s), cs.length⟩ := by
  cases rest with
  | nil => cases s <;> exact ⟨_, _, rfl, by decide⟩
  | cons d rest =>
    obtain rfl := h d rfl
    cases s <;> exact ⟨_, _, rfl, rfl⟩

/-! ## Reading what is written -/

/-- A token that is written out at the end of a line is read as this token. -/
theorem front_written {t : Token} (ht : t.wellFormed = true) {rest : List Char} (h : LineEnd rest) :
    ∃ c cs, t.written = c :: cs ∧ front c (cs ++ rest) = ⟨.token t, cs.length⟩ := by
  cases t with
  | doc text => exact ⟨'/', _, rfl, front_doc ht h⟩
  | keyword k =>
    obtain ⟨c, cs, hk, hc, hcs, hword⟩ := front_keyword k
    exact ⟨c, cs, hk, by rw [front_word hc hcs h, hword]⟩
  | sign s => exact front_sign s h
  | int n =>
    have hdigits : ∀ d ∈ Nat.toDigits 10 n.toNatClampNeg, isDigit d = true := fun _ => isDigit_of_mem_toDigits
    have hint := ofDigits?_toDigits (of_decide_eq_true ht)
    cases hn : Nat.toDigits 10 n.toNatClampNeg with
    | nil => exact absurd hn Nat.toDigits_ne_nil
    | cons c cs =>
      rw [hn] at hdigits hint
      exact ⟨c, cs, hn, by rw [front_digits hdigits h, hint]; rfl⟩
  | str text =>
    refine ⟨'"', _, rfl, ?_⟩
    rw [List.append_assoc, List.singleton_append, front_str, List.length_append, List.length_singleton]
  | ident x =>
    have hx : Spelling.isIdentifier x = true := ht
    unfold Spelling.isIdentifier at hx
    cases hcs : x.toList with
    | nil => simp [hcs] at hx
    | cons c cs =>
      simp only [hcs, Bool.and_eq_true, List.all_eq_true, Option.isNone_iff_eq_none] at hx
      obtain ⟨⟨hc, hcs'⟩, hk⟩ := hx
      have hword : ofWord (c :: cs) = ident x := by
        unfold ofWord
        rw [← hcs, String.ofList_toList, hk]
      exact ⟨c, cs, hcs, by rw [front_word hc hcs' h, hword]⟩

theorem scanFrom_written {t : Token} (ht : t.wellFormed = true) {rest : List Char} (h : LineEnd rest)
    (offset : Nat) : scanFrom offset (t.written ++ rest) =
      (scanFrom (offset + byteLength t.written) rest).map
        (⟨t, .ofOffsets offset (offset + byteLength t.written)⟩ :: ·) := by
  obtain ⟨c, cs, hw, hfront⟩ := front_written ht h
  rw [hw, List.cons_append, scanFrom]
  simp only [hfront, List.take_left, List.drop_left]

/-! ## Tokens behind one another -/

/-- What keeps any two tokens apart: a newline, and then a gap. -/
def Separator (text : List Char) : Prop := ∃ gap, text = '\n' :: gap ∧ Gap gap

/-- Tokens, each with the text that stands behind its own. Behind every token but the last there is a
separator, and behind the last there is one or nothing. -/
inductive Spaced : List (Token × List Char) → Prop
  | nil : Spaced []
  | last (t : Token) : Spaced [(t, [])]
  | cons {gap : List Char} {items : List (Token × List Char)} (t : Token) (hgap : Separator gap)
      (hitems : Spaced items) : Spaced ((t, gap) :: items)

/-- The text of some tokens and of what stands behind each of them. -/
def layout (items : List (Token × List Char)) : List Char := items.flatMap fun p => p.1.written ++ p.2

/-- The tokens with the places that they have in their text, when it begins at the byte `offset`. -/
def placed (offset : Nat) : List (Token × List Char) → List PlacedToken
  | [] => []
  | (t, gap) :: items =>
    ⟨t, .ofOffsets offset (offset + byteLength t.written)⟩ ::
      placed (offset + byteLength (t.written ++ gap)) items

theorem layout_cons (t : Token) (gap : List Char) (items : List (Token × List Char)) :
    layout ((t, gap) :: items) = t.written ++ (gap ++ layout items) := by
  rw [layout, List.flatMap_cons, List.append_assoc, layout]

theorem layout_append (items items' : List (Token × List Char)) :
    layout (items ++ items') = layout items ++ layout items' := List.flatMap_append

theorem Separator.gap {text : List Char} (h : Separator text) : Gap text := by
  obtain ⟨gap, rfl, hgap⟩ := h
  exact .space (by decide) hgap

theorem Separator.lineEnd {text : List Char} (h : Separator text) (rest : List Char) :
    LineEnd (text ++ rest) := by
  obtain ⟨gap, rfl, -⟩ := h
  exact fun c hc => (Option.some.inj hc).symm

/-- By induction on the tokens: what stands behind a token neither goes on with it nor is one. -/
theorem scanFrom_layout {items : List (Token × List Char)} (h : Spaced items)
    (ht : ∀ p ∈ items, p.1.wellFormed = true) (offset : Nat) :
    scanFrom offset (layout items) = .ok (placed offset items) := by
  induction h generalizing offset with
  | nil => exact scanFrom.eq_1 offset
  | last t =>
    have hw := scanFrom_written (ht _ (List.mem_singleton_self _)) LineEnd.nil offset
    rw [scanFrom, List.append_nil] at hw
    rw [layout, List.flatMap_singleton, List.append_nil, hw]
    rfl
  | @cons gap items t hgap _ ih =>
    have hw := scanFrom_written (ht _ (List.mem_cons_self ..)) (hgap.lineEnd (layout items)) offset
    have hrest := ih (fun p hp => ht p (List.mem_cons_of_mem _ hp)) (offset + byteLength (t.written ++ gap))
    rw [layout_cons, hw, scanFrom_gap hgap.gap, Nat.add_assoc, ← byteLength_append, hrest]
    rfl

theorem map_token_placed (items : List (Token × List Char)) (offset : Nat) :
    (placed offset items).map (·.token) = items.map (·.1) := by
  induction items generalizing offset with
  | nil => rfl
  | cons p items ih => rw [placed, List.map_cons, List.map_cons, ih]

theorem getElem?_placed (before : List (Token × List Char)) (t : Token) (gap : List Char)
    (after : List (Token × List Char)) (offset : Nat) :
    (placed offset (before ++ (t, gap) :: after))[before.length]? =
      some ⟨t, .ofOffsets (offset + byteLength (layout before))
        (offset + byteLength (layout before) + byteLength t.written)⟩ := by
  induction before generalizing offset with
  | nil => rfl
  | cons p before ih =>
    obtain ⟨s, space⟩ := p
    rw [List.cons_append, placed, List.length_cons, List.getElem?_cons_succ, ih, layout_cons,
      ← List.append_assoc, byteLength_append (s.written ++ space), Nat.add_assoc offset]

/-- Tokens that are written out with separators between them, behind any gap, are read as exactly these
tokens. Each has the place that its text has: its span is the one from the bytes before this text to the
bytes up to its end, and as long as the offsets in the text fit in 32 bits, these are its two offsets. -/
theorem scan_layout {lead : List Char} (hlead : Gap lead) {items : List (Token × List Char)}
    (hitems : Spaced items) (ht : ∀ p ∈ items, p.1.wellFormed = true) :
    ∃ tokens, scan (String.ofList (lead ++ layout items)) = .ok tokens ∧
      tokens.map (·.token) = items.map (·.1) ∧
      ∀ before t gap after, items = before ++ (t, gap) :: after →
        let start := byteLength (lead ++ layout before)
        let stop := start + byteLength t.written
        tokens[before.length]? = some ⟨t, .ofOffsets start stop⟩ ∧
          (byteLength (lead ++ layout items) < UInt32.size →
            (Span.ofOffsets start stop).start.toNat = start ∧ (Span.ofOffsets start stop).stop.toNat = stop) := by
  refine ⟨placed (byteLength lead) items, ?_, map_token_placed items _, ?_⟩
  · unfold scan
    rw [String.toList_ofList, scanFrom_gap hlead, scanFrom_layout hitems ht, Nat.zero_add]
  · rintro before t gap after rfl
    dsimp only
    rw [getElem?_placed, byteLength_append]
    refine ⟨rfl, fun hsize => ?_⟩
    rw [layout_append, layout_cons] at hsize
    simp only [byteLength_append] at hsize
    exact ⟨toNat_clamp (by omega), toNat_clamp (by omega)⟩

namespace Sample

/-- A line with a comment, and no token. -/
def remark : List Char := ['\n', '/', '/', ' ', '=', '\n', '\t']

/-- Tokens that would be others without the newlines between them. -/
def alike : List (Token × List Char) := [
  (.keyword .bind, ['\n']), (.ident "lets", remark), (.sign .equal, ['\n']), (.sign .equalEqual, ['\n']),
  (.sign .slash, remark), (.sign .slash, ['\n']), (.doc "/ both", ['\n']), (.int 10, ['\n']), (.int 0, remark),
  (.str "a\\\"\n\té", [])]

theorem remark_separates : Separator remark := by
  have htext : PlainComment [' ', '='] := ⟨by decide, by decide⟩
  exact ⟨_, rfl, .comment htext (.space (by decide) .nil)⟩

theorem alike_spaced : Spaced alike := by
  have hline : Separator ['\n'] := ⟨[], rfl, .nil⟩
  exact .cons _ hline (.cons _ remark_separates (.cons _ hline (.cons _ hline (.cons _ remark_separates (.cons _ hline
    (.cons _ hline (.cons _ hline (.cons _ remark_separates (.last _)))))))))

end Sample

/-- Two signs that would be one, a keyword in front of a longer word, a slash in front of a slash and of a
doc comment, a number in front of a number, and a text with every escape. -/
theorem scan_layout_alike : Gap Sample.remark ∧ Spaced Sample.alike ∧
    (∀ p ∈ Sample.alike, p.1.wellFormed = true) ∧
    ∃ tokens, scan (String.ofList (Sample.remark ++ layout Sample.alike)) = .ok tokens ∧
      tokens.map (·.token) = Sample.alike.map (·.1) := by
  have ht : ∀ p ∈ Sample.alike, p.1.wellFormed = true := by decide +kernel
  obtain ⟨tokens, hscan, htokens, -⟩ := scan_layout Sample.remark_separates.gap Sample.alike_spaced ht
  exact ⟨Sample.remark_separates.gap, Sample.alike_spaced, ht, tokens, hscan, htokens⟩

end LivePatch.Token
