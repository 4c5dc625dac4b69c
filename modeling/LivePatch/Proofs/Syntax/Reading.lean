/-
Reading some tokens wherever they stand. A reader reads a list of tokens if it passes exactly these,
whatever their places are and whatever comes behind them, as long as the next token allows for it. There
is a rule for each way in which readers are put together; a proof that a reader reads the spelling of a
tree follows the reader.
-/
import Mathlib.Data.List.Forall2
import LivePatch.Syntax.Spelling
import LivePatch.Syntax.Statement

namespace LivePatch

/-- The reader passes the tokens `ts` when what comes next satisfies `F`, and its result satisfies
`Q`. -/
def Reads {α : Type} (r : Reader α) (ts : List Token) (F : Option Token → Prop) (Q : α → Prop) : Prop :=
  ∀ (last : Span) (ps rest : List PlacedToken), ps.map (·.token) = ts →
    F (rest.head?.map (·.token)) →
    ∃ a last', r ⟨last, ps ++ rest⟩ = .ok a ⟨last', rest⟩ ∧ Q a

namespace Reads

variable {α β : Type} {r : Reader α} {ts us : List Token} {F G : Option Token → Prop} {Q Q' : α → Prop}
  {t : Token}

/-- A weaker result, or a stronger demand on what comes next. -/
theorem imp (h : Reads r ts F Q) (hF : ∀ o, G o → F o) (hQ : ∀ a, Q a → Q' a) : Reads r ts G Q' := by
  intro last ps rest hps hrest
  obtain ⟨a, last', hr, ha⟩ := h last ps rest hps (hF _ hrest)
  exact ⟨a, last', hr, hQ a ha⟩

theorem pure {a : α} (ha : Q a) : Reads (Pure.pure a) [] F Q := by
  intro last ps rest hps _
  obtain rfl := List.map_eq_nil_iff.1 hps
  exact ⟨a, last, rfl, ha⟩

/-- What comes behind the first of two readers is what the second one passes. -/
theorem bind {f : α → Reader β} {R : β → Prop} (hr : Reads r ts F Q)
    (hf : ∀ a, Q a → Reads (f a) us G R) (hnext : ∀ o, G o → F (us.head?.or o)) :
    Reads (r >>= f) (ts ++ us) G R := by
  intro last ps rest hps hrest
  obtain ⟨ps₁, ps₂, rfl, h₁, h₂⟩ := List.map_eq_append_iff.1 hps
  -- the first reader sees a token of the second, or what is behind both if the second passes nothing
  have hhead : (ps₂ ++ rest).head?.map (·.token) = us.head?.or (rest.head?.map (·.token)) := by
    rw [← h₂]
    cases ps₂ <;> rfl
  obtain ⟨a, last₁, hrun, ha⟩ := hr last ps₁ (ps₂ ++ rest) h₁ (by rw [hhead]; exact hnext _ hrest)
  obtain ⟨b, last₂, hrun', hb⟩ := hf a ha last₁ ps₂ rest h₂ hrest
  refine ⟨b, last₂, ?_, hb⟩
  show EStateM.bind r f _ = _
  unfold EStateM.bind
  rw [List.append_assoc, hrun]
  exact hrun'

/-- A reader that passes nothing. -/
theorem look {f : α → Reader β} {R : β → Prop} (hr : Reads r [] F Q) (hf : ∀ a, Q a → Reads (f a) us G R)
    (hnext : ∀ o, G o → F (us.head?.or o)) : Reads (r >>= f) us G R := hr.bind hf hnext

/-- A reader that passes one token, whatever comes next. -/
theorem step {f : α → Reader β} {R : β → Prop} (hr : Reads r [t] (fun _ => True) Q)
    (hf : ∀ a, Q a → Reads (f a) us G R) : Reads (r >>= f) (t :: us) G R := hr.bind hf fun _ _ => trivial

/-- A reader that is followed by others which pass nothing. -/
theorem finish {f : α → Reader β} {R : β → Prop} (hr : Reads r ts F Q)
    (hf : ∀ a, Q a → Reads (f a) [] F R) : Reads (r >>= f) ts F R := by
  rw [← List.append_nil ts]
  exact hr.bind hf fun _ ho => ho

/-! ## Single tokens -/

theorem expectAs (t : Token) (e : Expectation) :
    Reads (Reader.expectAs t e) [t] (fun _ => True) fun _ => True := by
  intro last ps rest hps _
  obtain ⟨p, ps, rfl, hp, hps⟩ := List.map_eq_cons_iff.1 hps
  obtain rfl := List.map_eq_nil_iff.1 hps
  refine ⟨p.span, p.span, ?_, trivial⟩
  unfold Reader.expectAs
  exact if_pos hp

theorem expect (t : Token) : Reads (Reader.expect t) [t] (fun _ => True) fun _ => True :=
  expectAs t (.token t)

theorem ident (x : Name) (e : Expectation) :
    Reads (Reader.ident e) [.ident x] (fun _ => True) (·.1 = x) := by
  intro last ps rest hps _
  obtain ⟨⟨t, s⟩, ps, rfl, ht, hps⟩ := List.map_eq_cons_iff.1 hps
  obtain rfl := List.map_eq_nil_iff.1 hps
  obtain rfl : t = .ident x := ht
  exact ⟨(x, s), s, rfl, rfl⟩

theorem advance (t : Token) : Reads Reader.advance [t] (fun _ => True) fun _ => True := by
  intro last ps rest hps _
  obtain ⟨p, ps, rfl, -, hps⟩ := List.map_eq_cons_iff.1 hps
  obtain rfl := List.map_eq_nil_iff.1 hps
  exact ⟨(), p.span, rfl, trivial⟩

theorem last : Reads Reader.last [] (fun _ => True) fun _ => True := by
  intro last ps rest hps _
  obtain rfl := List.map_eq_nil_iff.1 hps
  exact ⟨last, last, rfl, trivial⟩

theorem peek (o : Option Token) : Reads Reader.peek [] (· = o) (· = o) := by
  intro last ps rest hps hrest
  obtain rfl := List.map_eq_nil_iff.1 hps
  exact ⟨_, last, rfl, hrest⟩

theorem at? (t : Token) (b : Bool) :
    Reads (Reader.at? t) [] (fun o => decide (o = some t) = b) (· = b) := by
  intro last ps rest hps hrest
  obtain rfl := List.map_eq_nil_iff.1 hps
  exact ⟨_, last, rfl, hrest⟩

theorem eat (t : Token) : Reads (Reader.eat t) [t] (fun _ => True) (· = true) := by
  intro last ps rest hps _
  obtain ⟨p, ps, rfl, hp, hps⟩ := List.map_eq_cons_iff.1 hps
  obtain rfl := List.map_eq_nil_iff.1 hps
  refine ⟨true, p.span, ?_, rfl⟩
  unfold Reader.eat
  exact if_pos hp

theorem eat_none (t : Token) : Reads (Reader.eat t) [] (· ≠ some t) (· = false) := by
  intro last ps rest hps hrest
  obtain rfl := List.map_eq_nil_iff.1 hps
  refine ⟨false, last, ?_, rfl⟩
  unfold Reader.eat
  cases rest with
  | nil => rfl
  | cons p rest =>
    refine if_neg fun hp => hrest ?_
    show some p.token = _
    rw [hp]

/-! ## Doc comments -/

theorem passDocs (lines : List String) : ∀ (last : Span) (ps rest : List PlacedToken),
    ps.map (·.token) = lines.map .doc → (∀ text, rest.head?.map (·.token) ≠ some (.doc text)) →
    ∃ last', Reader.passDocs last (ps ++ rest) = (lines, ⟨last', rest⟩) := by
  induction lines with
  | nil =>
    intro last ps rest hps hrest
    obtain rfl := List.map_eq_nil_iff.1 hps
    refine ⟨last, ?_⟩
    cases rest with
    | nil => rfl
    | cons p rest =>
      obtain ⟨t, s⟩ := p
      cases t with
      | doc text => exact absurd rfl (hrest text)
      | _ => rfl
  | cons line lines ih =>
    intro last ps rest hps hrest
    rw [List.map_cons] at hps
    obtain ⟨⟨t, s⟩, ps', rfl, ht, hps'⟩ := List.map_eq_cons_iff.1 hps
    obtain rfl : t = .doc line := ht
    obtain ⟨last', h⟩ := ih s ps' rest hps' hrest
    refine ⟨last', ?_⟩
    rw [List.cons_append, Reader.passDocs, h]

theorem docs (doc : Option String) :
    Reads Reader.docs (Spelling.docTokens doc) (fun o => ∀ text, o ≠ some (.doc text)) (· = doc) := by
  intro last ps rest hps hrest
  cases doc with
  | none =>
    obtain ⟨last', h⟩ := passDocs [] last ps rest hps hrest
    refine ⟨none, last', ?_, rfl⟩
    unfold Reader.docs
    simp only [h]
  | some text =>
    obtain ⟨last', h⟩ := passDocs _ last ps rest hps hrest
    have hjoin : "\n".intercalate (Spelling.docLines text) = text := by
      apply String.toList_inj.1
      unfold Spelling.docLines
      rw [String.toList_intercalate, List.map_map, show (String.toList ∘ String.ofList) = id from
        funext fun cs => String.toList_ofList, List.map_id]
      exact List.intercalate_splitOn _
    have hne : Spelling.docLines text ≠ [] := fun hnil =>
      List.splitOn_ne_nil _ _ (List.map_eq_nil_iff.1 hnil)
    refine ⟨some text, last', ?_, rfl⟩
    unfold Reader.docs
    rw [h]
    split
    · rename_i hnil
      exact absurd (congrArg Prod.fst hnil) hne
    · rename_i hlines
      cases hlines
      rw [hjoin]

/-! ## Repetition -/

section Repetition

variable {β : Type} {item : Reader α} {spelt : β → List Token} {P : β → α → Prop} {stop : Token}

/-- Items up to a token with which none of them begins. -/
theorem untilSign {bs : List β} (hitem : ∀ b ∈ bs, Reads item (spelt b) (fun _ => True) (P b))
    (hhead : ∀ b ∈ bs, ∃ t ∈ (spelt b).head?, t ≠ stop) : ∀ {k : Nat}, bs.length ≤ k →
    Reads (Reader.untilSign stop item k) (bs.flatMap spelt) (· = some stop) (List.Forall₂ P bs) := by
  induction bs with
  | nil =>
    intro k _
    cases k with
    | zero => exact .pure .nil
    | succ k =>
      unfold Reader.untilSign
      refine (peek (some stop)).look ?_ fun o ho => ho
      rintro _ rfl
      simp only [if_true]
      exact .pure .nil
  | cons b bs ih =>
    intro k hk
    obtain ⟨k, rfl⟩ : ∃ n, k = n + 1 := ⟨k - 1, by simp at hk; omega⟩
    obtain ⟨t, ht, hne⟩ := hhead b (List.mem_cons_self ..)
    unfold Reader.untilSign
    rw [List.flatMap_cons]
    refine (peek (some t)).look ?_ fun o _ => by rw [List.head?_append, ht]; rfl
    rintro _ rfl
    simp only [if_neg hne]
    refine (hitem b (List.mem_cons_self ..)).bind ?_ fun _ _ => trivial
    intro x hx
    refine (ih (fun b hb => hitem b (List.mem_cons_of_mem _ hb))
      (fun b hb => hhead b (List.mem_cons_of_mem _ hb)) (Nat.le_of_succ_le_succ hk)).finish ?_
    intro xs hxs
    exact .pure (.cons hx hxs)

/-- Items up to the end of input. -/
theorem untilEnd {bs : List β} (hitem : ∀ b ∈ bs, Reads item (spelt b) (fun _ => True) (P b))
    (hhead : ∀ b ∈ bs, spelt b ≠ []) : ∀ {k : Nat}, bs.length ≤ k →
    Reads (Reader.untilEnd item k) (bs.flatMap spelt) (· = none) (List.Forall₂ P bs) := by
  induction bs with
  | nil =>
    intro k _
    cases k with
    | zero => exact .pure .nil
    | succ k =>
      unfold Reader.untilEnd
      refine (peek none).look ?_ fun o ho => ho
      rintro _ rfl
      exact .pure .nil
  | cons b bs ih =>
    intro k hk
    obtain ⟨k, rfl⟩ : ∃ n, k = n + 1 := ⟨k - 1, by simp at hk; omega⟩
    obtain ⟨t, ts, ht⟩ := List.exists_cons_of_ne_nil (hhead b (List.mem_cons_self ..))
    unfold Reader.untilEnd
    rw [List.flatMap_cons]
    refine (peek (some t)).look ?_ fun o _ => by rw [ht]; rfl
    rintro _ rfl
    refine (hitem b (List.mem_cons_self ..)).bind ?_ fun _ _ => trivial
    intro x hx
    refine (ih (fun b hb => hitem b (List.mem_cons_of_mem _ hb))
      (fun b hb => hhead b (List.mem_cons_of_mem _ hb)) (Nat.le_of_succ_le_succ hk)).finish ?_
    intro xs hxs
    exact .pure (.cons hx hxs)

/-- Items with commas between them. -/
theorem separated {bs : List β} (hitem : ∀ b ∈ bs, Reads item (spelt b) F (P b))
    (hhead : ∀ b ∈ bs, ∃ t ∈ (spelt b).head?, t ≠ stop) (hstop : stop ≠ .sign .comma)
    (hF : F (some (.sign .comma)) ∧ F (some stop)) : ∀ {k : Nat}, bs.length ≤ k →
    Reads (Reader.separated stop item k) (Spelling.commas (bs.map spelt)) (· = some stop)
      (List.Forall₂ P bs) := by
  induction bs with
  | nil =>
    intro k _
    cases k with
    | zero => exact .pure .nil
    | succ k =>
      unfold Reader.separated
      refine (at? stop true).look ?_ fun o ho => by rw [ho]; simp [Spelling.commas]
      rintro _ rfl
      exact .pure .nil
  | cons b bs ih =>
    intro k hk
    obtain ⟨k, rfl⟩ : ∃ n, k = n + 1 := ⟨k - 1, by simp at hk; omega⟩
    obtain ⟨t, ht, hne⟩ := hhead b (List.mem_cons_self ..)
    have hb := hitem b (List.mem_cons_self ..)
    unfold Reader.separated
    refine (at? stop false).look ?_ fun o _ => ?_
    · rintro _ rfl
      simp only [Bool.false_eq_true, if_false]
      cases bs with
      | nil =>
        show Reads _ (spelt b) _ _
        rw [← List.append_nil (spelt b)]
        refine hb.bind ?_ ?_
        · intro x hx
          refine (eat_none (.sign .comma)).look ?_ fun o ho => by rw [ho]; simpa using hstop
          rintro _ rfl
          exact .pure (.cons hx .nil)
        · intro o ho
          rw [ho]
          exact hF.2
      | cons b' bs =>
        show Reads _ (spelt b ++ .sign .comma :: Spelling.commas ((b' :: bs).map spelt)) _ _
        refine hb.bind ?_ fun _ _ => hF.1
        intro x hx
        refine (eat (.sign .comma)).step ?_
        rintro _ rfl
        refine (ih (fun b hb => hitem b (List.mem_cons_of_mem _ hb))
          (fun b hb => hhead b (List.mem_cons_of_mem _ hb)) (Nat.le_of_succ_le_succ hk)).finish ?_
        intro xs hxs
        exact .pure (.cons hx hxs)
    · have hhead : (Spelling.commas ((b :: bs).map spelt)).head? = some t := by
        cases bs with
        | nil => exact ht
        | cons b' bs =>
          show (spelt b ++ _).head? = _
          rw [List.head?_append, ht]
          rfl
      rw [hhead]
      simpa using hne

end Repetition

end Reads

end LivePatch
