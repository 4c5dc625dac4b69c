/-
Fields of the compiled form: words, texts, spans, and values that may be absent or come in number. A
field is read from the front of the bytes. Its decoder accepts what is written of a value and nothing
else, and hands on the bytes that stand behind it; from this every tree of fields gets the same.
-/
import LivePatch.Compiled.Decode
import LivePatch.Proofs.Sequence
import Mathlib.Tactic.IntervalCases

namespace LivePatch

namespace Compiled

/-- The decoder reads the written form of the values that fit. It accepts nothing else, and it accepts
every form of up to `n` bytes. -/
structure Reads {α : Type} (n : Nat) (d : Decoder α) (fits : α → Prop) (written : α → List UInt8) :
    Prop where
  sound : ∀ {bytes rest a}, d bytes = .ok a rest → fits a ∧ bytes = written a ++ rest
  complete : ∀ {a}, fits a → (written a).length ≤ n → ∀ rest, d (written a ++ rest) = .ok a rest

namespace Reads

variable {α β : Type} {n : Nat} {d : Decoder α} {fits : α → Prop} {written : α → List UInt8}

/-- What is accepted begins with a field. -/
theorem front (h : Reads n d fits written) {f : α → Decoder β} {bytes rest : List UInt8} {b : β}
    (hr : (d >>= f) bytes = .ok b rest) :
    ∃ a mid, fits a ∧ bytes = written a ++ mid ∧ f a mid = .ok b rest := by
  obtain ⟨a, mid, ha, hb⟩ := bind_ok hr
  obtain ⟨hfits, hbytes⟩ := h.sound ha
  exact ⟨a, mid, hfits, hbytes, hb⟩

/-- A field in front is read, and the rest is left to what follows. -/
theorem behind (h : Reads n d fits written) {a : α} (ha : fits a) (hn : (written a).length ≤ n)
    (rest : List UInt8) (f : α → Decoder β) : (d >>= f) (written a ++ rest) = f a rest :=
  bind_of_ok (h.complete ha hn rest) f

end Reads

/-! ## Words -/

theorem length_wordBytes (width k : Nat) : (wordBytes width k).length = width := by
  induction width generalizing k with
  | zero => rfl
  | succ width ih => rw [wordBytes, List.length_cons, ih]

theorem word_sound (width : Nat) {bytes rest : List UInt8} {k : Nat}
    (h : Decoder.word width bytes = .ok k rest) :
    k < 256 ^ width ∧ bytes = wordBytes width k ++ rest := by
  induction width generalizing bytes k with
  | zero =>
    cases h
    exact ⟨by simp, rfl⟩
  | succ width ih =>
    unfold Decoder.word at h
    split at h
    · cases h
    · rename_i b bytes
      split at h
      · rename_i j bytes hr
        cases h
        obtain ⟨hj, hb⟩ := ih hr
        have hlt := b.toNat_lt
        -- the first byte is the remainder, and the others are the quotient
        have hmod : (b.toNat + 256 * j) % 256 = b.toNat := by omega
        have hdiv : (b.toNat + 256 * j) / 256 = j := by omega
        constructor
        · rw [Nat.pow_succ]
          omega
        · rw [wordBytes, hmod, hdiv, UInt8.ofNat_toNat, hb, List.cons_append]
      · cases h

theorem word_complete (width : Nat) {k : Nat} (hk : k < 256 ^ width) (rest : List UInt8) :
    Decoder.word width (wordBytes width k ++ rest) = .ok k rest := by
  induction width generalizing k with
  | zero =>
    have hk : k = 0 := by simpa using hk
    subst hk
    rfl
  | succ width ih =>
    have hdiv : k / 256 < 256 ^ width := by
      rw [Nat.div_lt_iff_lt_mul (by decide), ← Nat.pow_succ]
      exact hk
    have hbyte : (UInt8.ofNat (k % 256)).toNat = k % 256 := by simp
    have hsum : k % 256 + 256 * (k / 256) = k := Nat.mod_add_div k 256
    rw [wordBytes, List.cons_append, Decoder.word]
    simp only [ih hdiv, hbyte, hsum]

theorem word_reads (n width : Nat) :
    Reads n (Decoder.word width) (· < 256 ^ width) (wordBytes width) :=
  ⟨word_sound width, fun hk _ rest => word_complete width hk rest⟩

/-- The number of a choice. -/
theorem tag_reads (n : Nat) {count : Nat} (hc : count ≤ 256 ^ 4) :
    Reads n (Decoder.tag count) (· < count) tagBytes := by
  constructor
  · intro bytes rest k h
    obtain ⟨j, mid, -, hbytes, hj⟩ := (word_reads n 4).front h
    split at hj
    · cases hj
      exact ⟨‹_›, hbytes⟩
    · cases hj
  · intro k hk _ rest
    unfold Decoder.tag tagBytes
    rw [bind_of_ok (word_complete 4 (Nat.lt_of_lt_of_le hk hc) rest), if_pos hk]
    rfl

theorem int_reads (n : Nat) : Reads n Decoder.int (fun _ => True) intBytes := by
  constructor
  · intro bytes rest k h
    obtain ⟨j, mid, hj, hbytes, hk⟩ := (word_reads n 8).front h
    cases hk
    have hj : (UInt64.ofNat j).toNat = j := by
      rw [UInt64.toNat_ofNat']
      exact Nat.mod_eq_of_lt hj
    refine ⟨trivial, ?_⟩
    unfold intBytes
    rw [UInt64.toUInt64_toInt64, hj]
    exact hbytes
  · intro k _ _ rest
    unfold Decoder.int intBytes
    rw [bind_of_ok (word_complete 8 k.toUInt64.toNat_lt rest), UInt64.ofNat_toNat]
    rfl

theorem span_reads (n : Nat) : Reads n Decoder.span (fun _ => True) spanBytes := by
  have hword (j : Nat) (hj : j < 256 ^ 4) : (UInt32.ofNat j).toNat = j := by
    rw [UInt32.toNat_ofNat']
    exact Nat.mod_eq_of_lt hj
  constructor
  · intro bytes rest s h
    obtain ⟨start, mid, hstart, rfl, h₁⟩ := (word_reads n 4).front h
    obtain ⟨stop, mid, hstop, rfl, h₂⟩ := (word_reads n 4).front h₁
    cases h₂
    refine ⟨trivial, ?_⟩
    unfold spanBytes
    rw [hword start hstart, hword stop hstop, List.append_assoc]
  · intro s _ _ rest
    unfold Decoder.span spanBytes
    rw [List.append_assoc, bind_of_ok (word_complete 4 s.start.toNat_lt _),
      bind_of_ok (word_complete 4 s.stop.toNat_lt _), UInt32.ofNat_toNat, UInt32.ofNat_toNat]
    rfl

/-! ## Truth values and choices without parts -/

theorem bool_reads (n : Nat) : Reads n Decoder.bool (fun _ => True) boolBytes := by
  constructor
  · intro bytes rest b h
    obtain ⟨j, mid, -, rfl, hb⟩ := (word_reads n 1).front h
    split at hb
    · cases hb
      exact ⟨trivial, rfl⟩
    · cases hb
      exact ⟨trivial, rfl⟩
    · cases hb
  · intro b _ _ rest
    cases b <;> rfl

theorem binaryOp_reads (n : Nat) :
    Reads n Decoder.binaryOp (fun _ => True) (fun op => tagBytes (binaryTag op)) := by
  constructor
  · intro bytes rest op h
    obtain ⟨j, mid, hj, rfl, hop⟩ := (tag_reads n (by decide)).front h
    interval_cases j <;> cases hop <;> exact ⟨trivial, rfl⟩
  · intro op _ hn rest
    unfold Decoder.binaryOp
    rw [(tag_reads n (by decide)).behind (by cases op <;> decide) hn]
    cases op <;> rfl

theorem unaryOp_reads (n : Nat) :
    Reads n Decoder.unaryOp (fun _ => True) (fun op => tagBytes (unaryTag op)) := by
  constructor
  · intro bytes rest op h
    obtain ⟨j, mid, hj, rfl, hop⟩ := (tag_reads n (by decide)).front h
    interval_cases j <;> cases hop <;> exact ⟨trivial, rfl⟩
  · intro op _ hn rest
    unfold Decoder.unaryOp
    rw [(tag_reads n (by decide)).behind (by cases op <;> decide) hn]
    cases op <;> rfl

/-! ## Texts -/

/-- Texts whose length can be written. -/
def TextFits (s : String) : Prop := s.utf8ByteSize < 2 ^ 64

instance (s : String) : Decidable (TextFits s) := inferInstanceAs (Decidable (s.utf8ByteSize < 2 ^ 64))

theorem length_encode (s : String) : (Text.Utf8.encode s).length = s.utf8ByteSize := by
  unfold Text.Utf8.encode
  simp

theorem utf8_decode_eq_ok_iff {bytes : List UInt8} {s : String} :
    Text.Utf8.decode bytes = .ok s ↔ bytes = Text.Utf8.encode s := by
  unfold Text.Utf8.decode Text.Utf8.encode String.fromUTF8?
  constructor
  · intro h
    split at h
    · rename_i t ht
      cases h
      split at ht
      · cases ht
        rfl
      · cases ht
    · cases h
  · rintro rfl
    have hv : (⟨s.toUTF8.data.toList.toArray⟩ : ByteArray).IsValidUTF8 := s.isValidUTF8
    rw [dif_pos hv]
    rfl

theorem split?_eq_some_iff {n : Nat} {bytes front rest : List UInt8} :
    Decoder.split? n bytes = some (front, rest) ↔ front.length = n ∧ bytes = front ++ rest := by
  induction n generalizing bytes front with
  | zero =>
    simp only [Decoder.split?, Option.some.injEq, Prod.mk.injEq, List.length_eq_zero_iff]
    constructor
    · rintro ⟨rfl, rfl⟩
      exact ⟨rfl, rfl⟩
    · rintro ⟨rfl, rfl⟩
      exact ⟨rfl, rfl⟩
  | succ n ih =>
    cases bytes with
    | nil =>
      simp only [Decoder.split?, reduceCtorEq, false_iff, not_and]
      intro hlen hnil
      rw [(List.nil_eq_append_iff.1 hnil).1] at hlen
      cases hlen
    | cons b bytes =>
      simp only [Decoder.split?, Option.map_eq_some_iff, Prod.exists, Prod.mk.injEq]
      constructor
      · rintro ⟨front, rest, hs, rfl, rfl⟩
        obtain ⟨rfl, rfl⟩ := ih.1 hs
        exact ⟨rfl, rfl⟩
      · rintro ⟨hlen, hb⟩
        cases front with
        | nil => cases hlen
        | cons c front =>
          cases hb
          exact ⟨front, rest, ih.2 ⟨Nat.succ.inj hlen, rfl⟩, rfl, rfl⟩

theorem text_reads (n : Nat) : Reads n Decoder.text TextFits textBytes := by
  constructor
  · intro bytes rest s h
    obtain ⟨k, mid, hk, hbytes, h₁⟩ := (word_reads n 8).front h
    rw [bind_of_ok (show (get : Decoder (List UInt8)) mid = .ok mid mid from rfl)] at h₁
    cases hs : Decoder.split? k mid with
    | none =>
      rw [hs] at h₁
      cases h₁
    | some parts =>
      obtain ⟨front, behind⟩ := parts
      rw [hs] at h₁
      simp only at h₁
      rw [bind_of_ok (show (set behind : Decoder PUnit) mid = .ok _ behind from rfl)] at h₁
      obtain ⟨rfl, rfl⟩ := split?_eq_some_iff.1 hs
      cases ht : Text.Utf8.decode front with
      | error fault =>
        rw [ht] at h₁
        cases h₁
      | ok t =>
        rw [ht] at h₁
        cases h₁
        obtain rfl := utf8_decode_eq_ok_iff.1 ht
        constructor
        · unfold TextFits
          rw [← length_encode]
          exact hk
        · unfold textBytes lengthBytes
          rw [List.append_assoc]
          exact hbytes
  · intro s hs _ rest
    have hk : (Text.Utf8.encode s).length < 256 ^ 8 := by
      rw [length_encode]
      exact hs
    unfold Decoder.text textBytes lengthBytes
    rw [List.append_assoc, bind_of_ok (word_complete 8 hk _),
      bind_of_ok (show (get : Decoder (List UInt8)) _ = .ok _ _ from rfl),
      split?_eq_some_iff.2 ⟨rfl, rfl⟩]
    simp only
    rw [bind_of_ok (show (set rest : Decoder PUnit) _ = .ok _ _ from rfl), utf8_decode_eq_ok_iff.2 rfl]
    rfl

/-! ## Values that may be absent, and values in number -/

section

variable {α : Type} {n : Nat} {d : Decoder α} {fits : α → Prop} {written : α → List UInt8}

theorem option_reads (h : Reads n d fits written) :
    Reads n (Decoder.option d) (fun o => ∀ a, o = some a → fits a) (optionBytes written) := by
  constructor
  · intro bytes rest o hr
    obtain ⟨j, mid, -, rfl, hj⟩ := (word_reads n 1).front hr
    split at hj
    · cases hj
      exact ⟨nofun, rfl⟩
    · obtain ⟨a, mid, ha, rfl, hpure⟩ := h.front (f := fun a => pure (some a)) hj
      cases hpure
      refine ⟨fun b hb => ?_, rfl⟩
      cases hb
      exact ha
    · cases hj
  · intro o ho hn rest
    cases o with
    | none => rfl
    | some a =>
      have hlen : (written a).length ≤ n := Nat.le_of_succ_le hn
      exact h.behind (ho a rfl) hlen rest fun a => pure (some a)

theorem many_sound (h : Reads n d fits written) (k : Nat) {bytes rest : List UInt8} {xs : List α}
    (hr : Decoder.many d k bytes = .ok xs rest) :
    xs.length = k ∧ (∀ x ∈ xs, fits x) ∧ bytes = xs.flatMap written ++ rest := by
  induction k generalizing bytes xs with
  | zero =>
    cases hr
    exact ⟨rfl, nofun, rfl⟩
  | succ k ih =>
    obtain ⟨x, mid, hx, rfl, hr₁⟩ := h.front hr
    obtain ⟨xs, mid, hxs, hr₂⟩ := bind_ok hr₁
    cases hr₂
    obtain ⟨rfl, hfits, rfl⟩ := ih hxs
    refine ⟨rfl, fun y hy => ?_, ?_⟩
    · rcases List.mem_cons.1 hy with rfl | hy
      · exact hx
      · exact hfits y hy
    · rw [List.flatMap_cons, List.append_assoc]

theorem many_complete (h : Reads n d fits written) {xs : List α} (hx : ∀ x ∈ xs, fits x)
    (hn : (xs.flatMap written).length ≤ n) (rest : List UInt8) :
    Decoder.many d xs.length (xs.flatMap written ++ rest) = .ok xs rest := by
  induction xs with
  | nil => rfl
  | cons x xs ih =>
    rw [List.flatMap_cons, List.length_append] at hn
    have htail := ih (fun y hy => hx y (List.mem_cons_of_mem _ hy)) (by omega)
    rw [List.length_cons, Decoder.many, List.flatMap_cons, List.append_assoc,
      h.behind (hx x (List.mem_cons_self ..)) (by omega), bind_of_ok htail]
    rfl

theorem list_reads (h : Reads n d fits written) :
    Reads n (Decoder.list d) (fun xs => xs.length < 2 ^ 64 ∧ ∀ x ∈ xs, fits x) (listBytes written) := by
  constructor
  · intro bytes rest xs hr
    obtain ⟨k, mid, hk, rfl, hmany⟩ := (word_reads n 8).front hr
    obtain ⟨rfl, hx, rfl⟩ := many_sound h k hmany
    refine ⟨⟨hk, hx⟩, ?_⟩
    unfold listBytes lengthBytes
    rw [List.append_assoc]
  · intro xs hx hn rest
    unfold listBytes at hn ⊢
    rw [List.length_append] at hn
    unfold Decoder.list lengthBytes
    rw [List.append_assoc, bind_of_ok (word_complete 8 hx.1 _)]
    exact many_complete h hx.2 (by omega) rest

end

end Compiled

end LivePatch
