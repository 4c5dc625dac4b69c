/-
Lines and columns. Each character takes the position further, to the next column or to the next line, so
that the positions of a text are in the order of their offsets and every position stands for one offset:
the one where passing that many lines, and then that many characters, arrives.
-/
import LivePatch.Span
import LivePatch.Proofs.Token.Scanned

namespace LivePatch

open Token (byteLength byteLength_append byteLength_toList byteLength_cons_pos)

namespace Position

/-- Characters begin at the offset, or the text ends there. -/
def Boundary (source : String) (offset : Nat) : Prop :=
  ∃ before after, source = before ++ after ∧ before.utf8ByteSize = offset

/-- A position in an earlier line, or in the same line at an earlier column. -/
def Before (p q : Position) : Prop := p.line < q.line ∨ p.line = q.line ∧ p.column < q.column

/-- The offset behind the given number of characters of a line. -/
def walkColumns : List Char → Nat → Option Nat
  | _, 0 => some 0
  | [], _ + 1 => none
  | c :: cs, n + 1 => if c = '\n' then none else (walkColumns cs n).map (c.utf8Size + ·)

/-- The offset behind the given number of lines and of characters of the line that follows. -/
def walkLines : List Char → Nat → Nat → Option Nat
  | cs, 0, columns => walkColumns cs columns
  | [], _ + 1, _ => none
  | c :: cs, lines + 1, columns =>
    (walkLines cs (if c = '\n' then lines else lines + 1) columns).map (c.utf8Size + ·)

/-- The offset where walking to a line and a column arrives. Both are counted from one. -/
def walk (source : String) : Position → Option Nat
  | ⟨lines + 1, columns + 1⟩ => walkLines source.toList lines columns
  | _ => none

/-! ## One character further -/

/-- The position behind one more character. -/
def step (p : Position) (c : Char) : Position := if c = '\n' then ⟨p.line + 1, 1⟩ else ⟨p.line, p.column + 1⟩

theorem before_step (p : Position) (c : Char) : p.Before (p.step c) := by
  unfold step
  split
  · exact .inl (Nat.lt_succ_self _)
  · exact .inr ⟨rfl, Nat.lt_succ_self _⟩

theorem Before.trans {p q r : Position} (h : p.Before q) (h' : q.Before r) : p.Before r := by
  unfold Before at *
  omega

theorem not_before_self (p : Position) : ¬p.Before p := by
  unfold Before
  omega

theorem after_concat (cs : List Char) (c : Char) : after (cs ++ [c]) = (after cs).step c := by
  unfold after step
  rw [List.reverse_append, List.count_append]
  by_cases hc : c = '\n'
  · subst hc
    simp
  · simp [hc]

/-- More characters take the position further, by induction from their end. -/
theorem after_before (cs : List Char) {ds : List Char} (hd : ds ≠ []) :
    (after cs).Before (after (cs ++ ds)) := by
  induction ds using List.reverseRecOn with
  | nil => exact absurd rfl hd
  | append_singleton ds d ih =>
    rw [← List.append_assoc, after_concat]
    by_cases hds : ds = []
    · rw [hds, List.append_nil]
      exact before_step _ d
    · exact (ih hds).trans (before_step _ d)

/-! ## Offsets -/

theorem takeBytes_cons {c : Char} {cs : List Char} {n : Nat} (hn : 0 < n) :
    takeBytes (c :: cs) n =
      if c.utf8Size ≤ n then (takeBytes cs (n - c.utf8Size)).map (c :: ·) else none := by
  rw [takeBytes]
  exact Nat.ne_of_gt hn

theorem takeBytes_append (cs ds : List Char) : takeBytes (cs ++ ds) (byteLength cs) = some cs := by
  induction cs with
  | nil => rw [byteLength, takeBytes.eq_def]
  | cons c cs ih =>
    rw [List.cons_append, takeBytes_cons (byteLength_cons_pos c cs), byteLength,
      if_pos (Nat.le_add_right _ _), Nat.add_sub_cancel_left, ih]
    rfl

theorem ofOffset_byteLength {source : String} {before after : List Char}
    (h : source.toList = before ++ after) : ofOffset source (byteLength before) = Position.after before := by
  unfold ofOffset
  rw [h, takeBytes_append]
  rfl

theorem boundary_iff {source : String} {offset : Nat} : Boundary source offset ↔
    ∃ before after, source.toList = before ++ after ∧ byteLength before = offset := by
  constructor
  · rintro ⟨before, after, rfl, rfl⟩
    exact ⟨before.toList, after.toList, String.toList_append, byteLength_toList before⟩
  · rintro ⟨before, after, h, rfl⟩
    refine ⟨String.ofList before, String.ofList after, ?_, ?_⟩
    · rw [← String.ofList_append, ← h, String.ofList_toList]
    · rw [← byteLength_toList, String.toList_ofList]

/-- Of two boundaries, the later one is behind more characters. -/
theorem Boundary.before_of_lt {source : String} {m n : Nat} (hm : Boundary source m) (hn : Boundary source n)
    (h : m < n) : (ofOffset source m).Before (ofOffset source n) := by
  obtain ⟨before, after, hs, rfl⟩ := boundary_iff.1 hm
  obtain ⟨before', after', hs', rfl⟩ := boundary_iff.1 hn
  rw [ofOffset_byteLength hs, ofOffset_byteLength hs']
  rcases List.prefix_or_prefix_of_prefix ⟨after, hs.symm⟩ ⟨after', hs'.symm⟩ with ⟨more, rfl⟩ | ⟨more, rfl⟩
  · refine after_before before fun hmore => ?_
    rw [hmore, List.append_nil] at h
    exact Nat.lt_irrefl _ h
  · rw [byteLength_append] at h
    omega

theorem Boundary.lt_iff {source : String} {m n : Nat} (hm : Boundary source m) (hn : Boundary source n) :
    m < n ↔ (ofOffset source m).Before (ofOffset source n) := by
  refine ⟨hm.before_of_lt hn, fun h => ?_⟩
  rcases Nat.lt_trichotomy m n with hlt | rfl | hgt
  · exact hlt
  · exact absurd h (not_before_self _)
  · exact absurd (h.trans (hn.before_of_lt hm hgt)) (not_before_self _)

theorem Boundary.eq_of_ofOffset_eq {source : String} {m n : Nat} (hm : Boundary source m)
    (hn : Boundary source n) (h : ofOffset source m = ofOffset source n) : m = n := by
  rcases Nat.lt_trichotomy m n with hlt | rfl | hgt
  · exact absurd (h ▸ hm.before_of_lt hn hlt) (not_before_self _)
  · rfl
  · exact absurd (h ▸ hn.before_of_lt hm hgt) (not_before_self _)

/-- No character ends behind the end of a text. -/
theorem takeBytes_of_lt : ∀ {cs : List Char} {n : Nat}, byteLength cs < n → takeBytes cs n = none
  | [], n + 1, _ => by rw [takeBytes]
  | c :: cs, n + 1, h => by
    rw [byteLength] at h
    rw [takeBytes_cons (Nat.succ_pos n), takeBytes_of_lt (show byteLength cs < n + 1 - c.utf8Size by omega)]
    split <;> rfl

theorem ofOffset_end {source : String} {offset : Nat} (h : source.utf8ByteSize ≤ offset) :
    ofOffset source offset = after source.toList := by
  unfold ofOffset
  rcases Nat.eq_or_lt_of_le h with rfl | h
  · rw [← byteLength_toList]
    have htake := takeBytes_append source.toList []
    rw [List.append_nil] at htake
    rw [htake]
    rfl
  · rw [takeBytes_of_lt (by rwa [byteLength_toList])]
    rfl

/-! ## Walking -/

/-- The characters of the last line. -/
def lastLine (cs : List Char) : List Char := cs.reverse.takeWhile (· ≠ '\n')

theorem lastLine_of_notMem {cs : List Char} (h : '\n' ∉ cs) : lastLine cs = cs.reverse := by
  unfold lastLine
  rw [List.takeWhile_eq_self_iff]
  intro c hc
  refine decide_eq_true ?_
  rintro rfl
  exact h (List.mem_reverse.1 hc)

theorem length_lastLine_of_notMem {cs : List Char} (h : '\n' ∉ cs) : (lastLine cs).length = cs.length := by
  rw [lastLine_of_notMem h, List.length_reverse]

/-- A character in front is in an earlier line, if it ends its line or another one behind it does. -/
theorem lastLine_cons {c : Char} {cs : List Char} (h : c = '\n' ∨ '\n' ∈ cs) :
    lastLine (c :: cs) = lastLine cs := by
  by_cases hcs : '\n' ∈ cs
  · unfold lastLine
    rw [List.reverse_cons, List.takeWhile_append, if_neg]
    intro hlen
    have hall := (List.takeWhile_prefix (· ≠ '\n')).eq_of_length hlen
    have hn := List.takeWhile_eq_self_iff.1 hall '\n' (List.mem_reverse.2 hcs)
    exact absurd hn (by decide)
  · obtain rfl := h.resolve_right hcs
    rw [lastLine_of_notMem hcs]
    unfold lastLine
    rw [List.reverse_cons, List.takeWhile_append, ← lastLine, lastLine_of_notMem hcs, if_pos rfl]
    exact List.append_nil _

theorem walkColumns_eq_some_iff : ∀ {cs : List Char} {columns n : Nat},
    walkColumns cs columns = some n ↔
      ∃ before after, cs = before ++ after ∧ byteLength before = n ∧ '\n' ∉ before ∧ before.length = columns
  | cs, 0, n => by
    rw [walkColumns, Option.some_inj]
    constructor
    · rintro rfl
      exact ⟨[], cs, rfl, rfl, List.not_mem_nil, rfl⟩
    · rintro ⟨before, after, -, hn, -, hlen⟩
      rw [List.length_eq_zero_iff.1 hlen] at hn
      exact hn
  | [], columns + 1, n => by
    rw [walkColumns]
    refine iff_of_false (fun h => by cases h) ?_
    rintro ⟨before, after, hs, -, -, hlen⟩
    rw [(List.append_eq_nil_iff.1 hs.symm).1] at hlen
    cases hlen
  | c :: cs, columns + 1, n => by
    rw [walkColumns]
    constructor
    · intro h
      split at h
      · cases h
      · rename_i hc
        obtain ⟨m, hm, rfl⟩ := Option.map_eq_some_iff.1 h
        obtain ⟨before, after, rfl, rfl, hnot, rfl⟩ := walkColumns_eq_some_iff.1 hm
        exact ⟨c :: before, after, rfl, rfl, List.not_mem_cons_of_ne_of_not_mem (Ne.symm hc) hnot, rfl⟩
    · rintro ⟨_ | ⟨d, before⟩, after, hs, rfl, hnot, hlen⟩
      · cases hlen
      · obtain ⟨rfl, rfl⟩ := List.cons.inj hs
        rw [List.mem_cons, not_or] at hnot
        rw [if_neg (Ne.symm hnot.1), Option.map_eq_some_iff]
        exact ⟨_, walkColumns_eq_some_iff.2 ⟨before, after, rfl, rfl, hnot.2, Nat.succ.inj hlen⟩, rfl⟩

theorem walkLines_eq_some_iff : ∀ {cs : List Char} {lines columns n : Nat},
    walkLines cs lines columns = some n ↔ ∃ before after, cs = before ++ after ∧ byteLength before = n ∧
      before.count '\n' = lines ∧ (lastLine before).length = columns
  | cs, 0, columns, n => by
    rw [walkLines, walkColumns_eq_some_iff]
    simp only [List.count_eq_zero]
    constructor
    · rintro ⟨before, after, hs, hn, hnot, hlen⟩
      exact ⟨before, after, hs, hn, hnot, (length_lastLine_of_notMem hnot).trans hlen⟩
    · rintro ⟨before, after, hs, hn, hnot, hlen⟩
      exact ⟨before, after, hs, hn, hnot, (length_lastLine_of_notMem hnot).symm.trans hlen⟩
  | [], lines + 1, columns, n => by
    rw [walkLines]
    refine iff_of_false (fun h => by cases h) ?_
    rintro ⟨before, after, hs, -, hcount, -⟩
    rw [(List.append_eq_nil_iff.1 hs.symm).1] at hcount
    cases hcount
  | c :: cs, lines + 1, columns, n => by
    rw [walkLines, Option.map_eq_some_iff]
    -- the characters behind `c` have the newlines that are left
    have hstep : ∀ before : List Char,
        (before.count '\n' = if c = '\n' then lines else lines + 1) ↔
          (c :: before).count '\n' = lines + 1 := by
      intro before
      rw [List.count_cons]
      split <;> simp_all
    have hlast : ∀ before : List Char, (c :: before).count '\n' = lines + 1 →
        lastLine (c :: before) = lastLine before := by
      intro before hcount
      have hmem : '\n' ∈ c :: before := List.count_pos_iff.1 (hcount ▸ Nat.succ_pos lines)
      exact lastLine_cons ((List.mem_cons.1 hmem).imp Eq.symm id)
    constructor
    · rintro ⟨m, hm, rfl⟩
      obtain ⟨before, after, rfl, rfl, hcount, rfl⟩ := walkLines_eq_some_iff.1 hm
      have hcount := (hstep before).1 hcount
      exact ⟨c :: before, after, rfl, rfl, hcount, congrArg List.length (hlast before hcount)⟩
    · rintro ⟨_ | ⟨d, before⟩, after, hs, rfl, hcount, rfl⟩
      · cases hcount
      · obtain ⟨rfl, rfl⟩ := List.cons.inj hs
        exact ⟨_, walkLines_eq_some_iff.2 ⟨before, after, rfl, rfl, (hstep before).2 hcount,
          congrArg List.length (hlast before hcount).symm⟩, rfl⟩

/-- Walking to a position arrives at an offset exactly when the position is the one of the offset. -/
theorem walk_eq_some_iff {source : String} {p : Position} {offset : Nat} :
    walk source p = some offset ↔ Boundary source offset ∧ ofOffset source offset = p := by
  constructor
  · obtain ⟨_ | line, _ | column⟩ := p <;> intro h
    case succ.succ =>
      obtain ⟨before, after, hs, rfl, rfl, rfl⟩ := walkLines_eq_some_iff.1 h
      exact ⟨boundary_iff.2 ⟨before, after, hs, rfl⟩, ofOffset_byteLength hs⟩
    all_goals cases h
  · rintro ⟨hb, rfl⟩
    obtain ⟨before, after, hs, rfl⟩ := boundary_iff.1 hb
    rw [ofOffset_byteLength hs]
    exact walkLines_eq_some_iff.2 ⟨before, after, hs, rfl, rfl, rfl⟩

end Position

end LivePatch
