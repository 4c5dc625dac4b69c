/-
The text between tokens. Blanks and comments are passed over, a blank at a time and a comment with the end
of its line, so that reading goes on behind a gap as if nothing had stood there.
-/
import LivePatch.Proofs.Token.Scanned

namespace LivePatch.Token

/-! ## Gaps -/

/-- The text of a comment behind its two slashes, up to the end of the line. A third slash would make it a
doc comment, which is a token. -/
def PlainComment (text : List Char) : Prop := '\n' ∉ text ∧ text.head? ≠ some '/'

/-- Text in which there is no token, with something behind it: blanks, and comments each closed by the end
of its line. -/
inductive Gap : List Char → Prop
  | nil : Gap []
  | space {c : Char} {cs : List Char} (hc : isSpace c = true) (hcs : Gap cs) : Gap (c :: cs)
  | comment {text cs : List Char} (htext : PlainComment text) (hcs : Gap cs) :
      Gap ('/' :: '/' :: (text ++ '\n' :: cs))

/-- Text at the end in which there is no token: the last comment may go on up to the end. -/
inductive LastGap : List Char → Prop
  | gap {cs : List Char} (h : Gap cs) : LastGap cs
  | comment {cs text : List Char} (h : Gap cs) (htext : PlainComment text) :
      LastGap (cs ++ '/' :: '/' :: text)

theorem Gap.append {cs ds : List Char} (hcs : Gap cs) (hds : Gap ds) : Gap (cs ++ ds) := by
  induction hcs with
  | nil => exact hds
  | space hc _ ih => exact .space hc ih
  | @comment text cs htext _ ih =>
    have happ : '/' :: '/' :: (text ++ '\n' :: cs) ++ ds = '/' :: '/' :: (text ++ '\n' :: (cs ++ ds)) := by
      simp
    rw [happ]
    exact .comment htext ih

theorem LastGap.prepend {cs ds : List Char} (hcs : Gap cs) (hds : LastGap ds) : LastGap (cs ++ ds) := by
  cases hds with
  | gap h => exact .gap (hcs.append h)
  | comment h htext =>
    rw [← List.append_assoc]
    exact .comment (hcs.append h) htext

/-! ## Reading over a gap -/

/-- A text that begins with a newline, if it is not empty. -/
def LineEnd (rest : List Char) : Prop := ∀ c ∈ rest.head?, c = '\n'

theorem LineEnd.nil : LineEnd [] := fun c hc => absurd hc (Option.not_mem_none c)

/-- What goes on with no newline stops at the end of the line. -/
theorem LineEnd.takeWhile {rest : List Char} (h : LineEnd rest) {p : Char → Bool} (hp : p '\n' = false)
    (xs : List Char) (hxs : ∀ x ∈ xs, p x = true) : (xs ++ rest).takeWhile p = xs := by
  rw [List.takeWhile_append_of_pos hxs]
  cases rest with
  | nil => rw [List.takeWhile_nil, List.append_nil]
  | cons c rest =>
    rw [h c rfl, List.takeWhile_cons_of_neg (by rw [hp]; exact Bool.false_ne_true), List.append_nil]

/-- A piece that is skipped. -/
theorem scanFrom_skipped {c : Char} {cs : List Char} {n : Nat} (h : front c cs = ⟨.skipped, n⟩) (offset : Nat) :
    scanFrom offset (c :: cs) = scanFrom (offset + byteLength (c :: cs.take n)) (cs.drop n) := by
  rw [scanFrom]
  simp only [h]

theorem front_space {c : Char} (hc : isSpace c = true) (cs : List Char) :
    front c cs = ⟨.skipped, (cs.takeWhile isSpace).length⟩ := by
  unfold front
  rw [if_pos hc]

/-- Blanks may be skipped one by one, although a run of them is a single piece. -/
theorem scanFrom_space {c : Char} (hc : isSpace c = true) (offset : Nat) (cs : List Char) :
    scanFrom offset (c :: cs) = scanFrom (offset + c.utf8Size) cs := by
  rw [scanFrom_skipped (front_space hc cs)]
  cases cs with
  | nil => rfl
  | cons d ds =>
    by_cases hd : isSpace d = true
    · rw [scanFrom_skipped (front_space hd ds), List.takeWhile_cons_of_pos hd]
      simp only [List.length_cons, List.take_succ_cons, List.drop_succ_cons, byteLength, Nat.add_assoc]
    · rw [List.takeWhile_cons_of_neg hd]
      simp only [List.length_nil, List.take_zero, List.drop_zero, byteLength, Nat.add_zero]

theorem commentPiece_plain {text : List Char} (h : text.head? ≠ some '/') :
    commentPiece ('/' :: text) = .skipped := by
  unfold commentPiece
  split
  · rename_i rest hcons
    cases hcons
    exact absurd rfl h
  · rfl

/-- A comment reaches to the end of its line. -/
theorem front_comment {text : List Char} (h : PlainComment text) {rest : List Char} (hrest : LineEnd rest) :
    front '/' ('/' :: (text ++ rest)) = ⟨.skipped, text.length + 1⟩ := by
  have hline : ('/' :: (text ++ rest)).takeWhile (· ≠ '\n') = '/' :: text := by
    refine hrest.takeWhile (by decide) ('/' :: text) fun x hx => decide_eq_true ?_
    rcases List.mem_cons.1 hx with rfl | hx
    · decide
    · rintro rfl
      exact h.1 hx
  unfold front
  rw [if_neg (by decide), if_pos ⟨rfl, rfl⟩]
  simp only [hline, commentPiece_plain h.2, List.length_cons]

/-- A comment that is closed by the end of its line is skipped with it. -/
theorem scanFrom_comment {text : List Char} (h : PlainComment text) (offset : Nat) (cs : List Char) :
    scanFrom offset ('/' :: '/' :: (text ++ '\n' :: cs)) =
      scanFrom (offset + byteLength ('/' :: '/' :: (text ++ ['\n']))) cs := by
  have hfront := front_comment h (show LineEnd ('\n' :: cs) from fun c hc => (Option.some.inj hc).symm)
  rw [scanFrom_skipped hfront, List.take_succ_cons, List.drop_succ_cons, List.take_left, List.drop_left,
    scanFrom_space (by decide)]
  simp only [byteLength, byteLength_append, Nat.add_assoc, Nat.add_zero]

/-- Behind a gap, reading goes on at the offset behind it. -/
theorem scanFrom_gap {gap : List Char} (h : Gap gap) (offset : Nat) (cs : List Char) :
    scanFrom offset (gap ++ cs) = scanFrom (offset + byteLength gap) cs := by
  induction h generalizing offset with
  | nil => rfl
  | space hc _ ih => rw [List.cons_append, scanFrom_space hc, ih, byteLength, Nat.add_assoc]
  | @comment text gap htext _ ih =>
    have happ : '/' :: '/' :: (text ++ '\n' :: gap) ++ cs = '/' :: '/' :: (text ++ '\n' :: (gap ++ cs)) := by
      simp
    rw [happ, scanFrom_comment htext, ih]
    simp only [byteLength, byteLength_append, Nat.add_assoc, Nat.add_zero]

end LivePatch.Token
