/-
What a reader passes. Whatever stands before it, a reader that succeeds has passed the tokens at the
front of what was left and nothing else, and one that fails stands somewhere behind where it began, at the
token that its fault names, or behind the tokens that its fault is about. There is a rule for each way in
which readers are put together; a proof about what a reader makes of the tokens it passes follows the reader.
-/
import LivePatch.Proofs.Sequence
import LivePatch.Proofs.Syntax.Derivation

namespace LivePatch

open PlacedToken (lastSpan)

/-- The fault is one of reading, and names the next of the tokens left where the next token is at
fault. -/
def SyntaxError.Stands (rest : List PlacedToken) : SyntaxError → Prop
  | scan _ => False
  | unexpected _ found => rest.head? = some found
  | endOfInput _ => rest = []
  | assignTarget _ | defaultOrder .. => True

/-- A fault that is about tokens which have been passed is about the last ones of these: the name of a
parameter, or an expression and the sign of assignment behind it. -/
def SyntaxError.Blames (passed : List PlacedToken) : SyntaxError → Prop
  | scan _ | unexpected .. | endOfInput _ => True
  | assignTarget s => ∃ (before ts : List PlacedToken) (equal : PlacedToken) (target : Expr),
      passed = before ++ (ts ++ [equal]) ∧ Expr.From ts target ∧ equal.token = .sign .equal ∧
        target.isTarget = false ∧ s = target.span
  | defaultOrder x s => ∃ before, passed = before ++ [⟨.ident x, s⟩]

theorem SyntaxError.Blames.behind {passed : List PlacedToken} {e : SyntaxError} (h : e.Blames passed)
    (ts : List PlacedToken) : e.Blames (ts ++ passed) := by
  cases e with
  | scan | unexpected | endOfInput => trivial
  | assignTarget s =>
    obtain ⟨before, us, equal, target, rfl, htarget⟩ := h
    exact ⟨ts ++ before, us, equal, target, (List.append_assoc ..).symm, htarget⟩
  | defaultOrder x s =>
    obtain ⟨before, rfl⟩ := h
    exact ⟨ts ++ before, (List.append_assoc ..).symm⟩

/-- What came of reading where the tokens `rest` were left behind one at `l`: a success has passed tokens at
the front of these, which satisfy `P` together with the result. -/
def Passed {α : Type} (l : Span) (rest : List PlacedToken) (P : List PlacedToken → α → Prop) :
    EStateM.Result SyntaxError Cursor α → Prop
  | .ok a c => ∃ ts, rest = ts ++ c.rest ∧ c.last = lastSpan l ts ∧ P ts a
  | .error e c => (∃ ts, rest = ts ++ c.rest ∧ e.Blames ts) ∧ e.Stands c.rest

/-- Behind a token at `l`, whatever tokens are left, the reader passes tokens at the front of these which
satisfy `P` together with its result; or it fails. -/
def Passes {α : Type} (l : Span) (r : Reader α) (P : List PlacedToken → α → Prop) : Prop :=
  ∀ rest, Passed l rest P (r ⟨l, rest⟩)

namespace Passed

variable {α : Type} {l : Span} {rest us : List PlacedToken} {P : List PlacedToken → α → Prop}
  {res : EStateM.Result SyntaxError Cursor α}

theorem imp {P' : List PlacedToken → α → Prop} (h : Passed l rest P res) (hP : ∀ ts a, P ts a → P' ts a) :
    Passed l rest P' res := by
  cases res with
  | ok a c =>
    obtain ⟨ts, hts, hlast, ha⟩ := h
    exact ⟨ts, hts, hlast, hP ts a ha⟩
  | error e c => exact h

/-- Tokens in front of those that were left have been passed as well. -/
theorem behind (ts : List PlacedToken) (h : Passed (lastSpan l ts) us (fun vs a => P (ts ++ vs) a) res) :
    Passed l (ts ++ us) P res := by
  cases res with
  | ok a c =>
    obtain ⟨vs, rfl, hlast, ha⟩ := h
    exact ⟨ts ++ vs, (List.append_assoc ..).symm, by rw [hlast, PlacedToken.lastSpan_append], ha⟩
  | error e c =>
    obtain ⟨⟨vs, rfl, hb⟩, he⟩ := h
    exact ⟨⟨ts ++ vs, (List.append_assoc ..).symm, hb.behind ts⟩, he⟩

/-- A fault where the reading began, about no token before. -/
theorem fault {e : SyntaxError} (he : e.Stands rest) (hb : e.Blames []) :
    Passed l rest P (.error e ⟨l, rest⟩) :=
  ⟨⟨[], rfl, hb⟩, he⟩

/-- A fault about tokens that have just been passed. -/
theorem blame {e : SyntaxError} {l' : Span} {ts : List PlacedToken} (hb : e.Blames ts) (he : e.Stands us) :
    Passed l (ts ++ us) P (.error e ⟨l', us⟩) :=
  ⟨⟨ts, rfl, hb⟩, he⟩

/-- A token that may be left out is passed, or reading goes on where it was. -/
theorem eat {β : Type} {Q : List PlacedToken → β → Prop} {t : Token} {f : Bool → Reader β} {l' : Span}
    (ts : List PlacedToken) (hyes : ∀ p vs, p.token = t → Passed l (ts ++ p :: vs) Q (f true ⟨p.span, vs⟩))
    (hno : ∀ us, Passed l (ts ++ us) Q (f false ⟨l', us⟩)) :
    Passed l (ts ++ us) Q ((Reader.eat t >>= f) ⟨l', us⟩) := by
  cases us with
  | nil => exact hno []
  | cons p us =>
    by_cases hp : p.token = t
    · rw [bind_of_ok (show Reader.eat t ⟨l', p :: us⟩ = .ok true ⟨p.span, us⟩ from if_pos hp)]
      exact hyes p us hp
    · rw [bind_of_ok (show Reader.eat t ⟨l', p :: us⟩ = .ok false ⟨l', p :: us⟩ from if_neg hp)]
      exact hno (p :: us)

end Passed

namespace Passes

variable {α β : Type} {l : Span} {r : Reader α} {f : α → Reader β} {P P' : List PlacedToken → α → Prop}
  {Q : List PlacedToken → β → Prop} {t : Token}

/-- What a success has passed. -/
theorem of_ok (h : Passes l r P) {rest : List PlacedToken} {a : α} {c : Cursor}
    (hr : r ⟨l, rest⟩ = .ok a c) : ∃ ts, rest = ts ++ c.rest ∧ c.last = lastSpan l ts ∧ P ts a := by
  have hrest := h rest
  rw [hr] at hrest
  exact hrest

/-- Where a failure stands. -/
theorem of_error (h : Passes l r P) {rest : List PlacedToken} {e : SyntaxError} {c : Cursor}
    (hr : r ⟨l, rest⟩ = .error e c) : (∃ ts, rest = ts ++ c.rest) ∧ e.Stands c.rest := by
  have hrest := h rest
  rw [hr] at hrest
  obtain ⟨⟨ts, hts, -⟩, he⟩ := hrest
  exact ⟨⟨ts, hts⟩, he⟩

/-- What a failure has passed. -/
theorem blames_of_error (h : Passes l r P) {rest : List PlacedToken} {e : SyntaxError} {c : Cursor}
    (hr : r ⟨l, rest⟩ = .error e c) : ∃ ts, rest = ts ++ c.rest ∧ e.Blames ts := by
  have hrest := h rest
  rw [hr] at hrest
  exact hrest.1

theorem imp (h : Passes l r P) (hP : ∀ ts a, P ts a → P' ts a) : Passes l r P' :=
  fun rest => (h rest).imp hP

theorem pure {a : α} (h : P [] a) : Passes l (Pure.pure a) P := fun _ => ⟨[], rfl, rfl, h⟩

theorem expected {e : Expectation} : Passes l (Reader.expected e) P := by
  intro rest
  cases rest with
  | nil => exact .fault rfl trivial
  | cons p rest => exact .fault rfl trivial

/-- What comes of two readers is what comes of the second one behind the tokens that the first has passed. -/
theorem bind_passed (hr : Passes l r P)
    (hf : ∀ ts a us, P ts a → Passed l (ts ++ us) Q (f a ⟨lastSpan l ts, us⟩)) : Passes l (r >>= f) Q := by
  intro rest
  cases hrun : r ⟨l, rest⟩ with
  | ok a c =>
    obtain ⟨last, us⟩ := c
    obtain ⟨ts, rfl, rfl, ha⟩ := hr.of_ok hrun
    rw [bind_of_ok hrun]
    exact hf ts a us ha
  | error e c =>
    rw [bind_of_error hrun]
    exact ⟨hr.blames_of_error hrun, (hr.of_error hrun).2⟩

/-- What comes behind the first of two readers is what the second one passes. -/
theorem bind (hr : Passes l r P)
    (hf : ∀ ts a, P ts a → Passes (lastSpan l ts) (f a) fun us b => Q (ts ++ us) b) :
    Passes l (r >>= f) Q :=
  hr.bind_passed fun ts a us ha => (hf ts a ha us).behind ts

theorem ite {c : Prop} [Decidable c] {s : Reader α} (hr : c → Passes l r P) (hs : ¬ c → Passes l s P) :
    Passes l (if c then r else s) P := by
  split
  · exact hr ‹_›
  · exact hs ‹_›

/-! ## Single tokens

Each rule takes the reader of one token together with what comes behind it. -/

theorem expectAs {e : Expectation} {f : Span → Reader β}
    (hf : ∀ p : PlacedToken, p.token = t → Passes p.span (f p.span) fun us b => Q (p :: us) b) :
    Passes l (Reader.expectAs t e >>= f) Q := by
  intro rest
  cases rest with
  | nil => exact .fault rfl trivial
  | cons p rest =>
    by_cases hp : p.token = t
    · rw [bind_of_ok (show Reader.expectAs t e ⟨l, p :: rest⟩ = .ok p.span ⟨p.span, rest⟩ from if_pos hp)]
      exact (hf p hp rest).behind [p]
    · rw [bind_of_error (show Reader.expectAs t e ⟨l, p :: rest⟩ = .error (.unexpected e p) ⟨l, p :: rest⟩
        from if_neg hp)]
      exact .fault rfl trivial

theorem expect {f : Span → Reader β}
    (hf : ∀ p : PlacedToken, p.token = t → Passes p.span (f p.span) fun us b => Q (p :: us) b) :
    Passes l (Reader.expect t >>= f) Q := expectAs hf

theorem ident_passed {e : Expectation} {f : Name × Span → Reader β}
    (hf : ∀ (p : PlacedToken) (x : Name) (us : List PlacedToken), p.token = .ident x →
      Passed l (p :: us) Q (f (x, p.span) ⟨p.span, us⟩)) :
    Passes l (Reader.ident e >>= f) Q := by
  intro rest
  cases rest with
  | nil => exact .fault rfl trivial
  | cons p rest =>
    obtain ⟨t, s⟩ := p
    cases t with
    | ident x => exact hf ⟨.ident x, s⟩ x rest rfl
    | _ => exact .fault rfl trivial

theorem ident {e : Expectation} {f : Name × Span → Reader β}
    (hf : ∀ (p : PlacedToken) (x : Name), p.token = .ident x →
      Passes p.span (f (x, p.span)) fun us b => Q (p :: us) b) :
    Passes l (Reader.ident e >>= f) Q :=
  ident_passed fun p x us hp => (hf p x hp us).behind [p]

theorem eat {f : Bool → Reader β}
    (hyes : ∀ p : PlacedToken, p.token = t → Passes p.span (f true) fun us b => Q (p :: us) b)
    (hno : Passes l (f false) Q) : Passes l (Reader.eat t >>= f) Q :=
  fun _ => .eat [] (fun p us hp => (hyes p hp us).behind [p]) hno

/-- The same where it decides what is read. -/
theorem eat_ite {r s : Reader β}
    (hyes : ∀ p : PlacedToken, p.token = t → Passes p.span r fun us b => Q (p :: us) b)
    (hno : Passes l s Q) : Passes l (do if ← Reader.eat t then r else s) Q := eat hyes hno

theorem peek {f : Option Token → Reader β} (hf : ∀ o, Passes l (f o) Q) :
    Passes l (Reader.peek >>= f) Q := fun rest => hf _ rest

theorem at? {f : Bool → Reader β} (hf : ∀ b, Passes l (f b) Q) : Passes l (Reader.at? t >>= f) Q :=
  fun rest => hf _ rest

theorem last {f : Span → Reader β} (hf : Passes l (f l) Q) : Passes l (Reader.last >>= f) Q :=
  fun rest => hf rest

/-- A token that stands for an operator is passed; before any other one, the reader is as given. -/
theorem operator {op? : Token → Option BinaryOp} {f : BinaryOp → Reader α} (hno : Passes l r P)
    (hyes : ∀ (p : PlacedToken) (op : BinaryOp), op? p.token = some op →
      Passes p.span (f op) fun us a => P (p :: us) a) :
    Passes l (do
      match (← Reader.peek).bind op? with
      | none => r
      | some op =>
        Reader.advance
        f op) P := by
  intro rest
  cases rest with
  | nil => exact hno []
  | cons p rest =>
    rw [bind_of_ok (show Reader.peek ⟨l, p :: rest⟩ = .ok (some p.token) ⟨l, p :: rest⟩ from rfl),
      Option.bind_some]
    cases hop : op? p.token with
    | none => exact hno (p :: rest)
    | some op => exact (hyes p op hop rest).behind [p]

/-! ## Doc comments -/

theorem passDocs : ∀ (l : Span) (rest : List PlacedToken), ∃ ds : List PlacedToken,
    rest = ds ++ (Reader.passDocs l rest).2.rest ∧ (Reader.passDocs l rest).2.last = lastSpan l ds ∧
      ds.map (·.token) = (Reader.passDocs l rest).1.map .doc
  | l, [] => ⟨[], rfl, rfl, rfl⟩
  | l, ⟨t, s⟩ :: rest => by
    cases t with
    | doc text =>
      obtain ⟨ds, hrest, hlast, hds⟩ := passDocs s rest
      exact ⟨⟨.doc text, s⟩ :: ds, congrArg _ hrest, hlast, congrArg _ hds⟩
    | _ => exact ⟨[], rfl, rfl, rfl⟩

theorem docs : Passes l Reader.docs DocFrom := by
  intro rest
  obtain ⟨ds, hrest, hlast, hds⟩ := passDocs l rest
  unfold Reader.docs
  cases hpass : Reader.passDocs l rest with
  | mk lines behind =>
    rw [hpass] at hrest hlast hds
    cases lines with
    | nil => exact ⟨ds, hrest, hlast, [], hds, rfl⟩
    | cons line lines => exact ⟨ds, hrest, hlast, line :: lines, hds, rfl⟩

/-! ## Repetition -/

section Repetition

variable {item : Reader α} {L : List PlacedToken → List α → Prop}

theorem untilSign (hitem : ∀ l, Passes l item P) (hnil : L [] [])
    (hcons : ∀ {ts us : List PlacedToken} {a : α} {as : List α}, P ts a → L us as → L (ts ++ us) (a :: as)) :
    ∀ (n : Nat) (l : Span), Passes l (Reader.untilSign t item n) L
  | 0, l => .pure hnil
  | n + 1, l => by
    unfold Reader.untilSign
    refine .peek fun o => ?_
    cases o with
    | none => exact .pure hnil
    | some u =>
      refine .ite (fun _ => .pure hnil) fun _ => .bind (hitem l) fun ts a ha => ?_
      exact .bind (untilSign hitem hnil hcons n _) fun us as has => .pure (by simpa using hcons ha has)

theorem untilEnd (hitem : ∀ l, Passes l item P) (hnil : L [] [])
    (hcons : ∀ {ts us : List PlacedToken} {a : α} {as : List α}, P ts a → L us as → L (ts ++ us) (a :: as)) :
    ∀ (n : Nat) (l : Span), Passes l (Reader.untilEnd item n) L
  | 0, l => .pure hnil
  | n + 1, l => by
    unfold Reader.untilEnd
    refine .peek fun o => ?_
    cases o with
    | none => exact .pure hnil
    | some u =>
      refine .bind (hitem l) fun ts a ha => ?_
      exact .bind (untilEnd hitem hnil hcons n _) fun us as has => .pure (by simpa using hcons ha has)

theorem separated (hitem : ∀ l, Passes l item P) (hnil : L [] [])
    (hone : ∀ {ts : List PlacedToken} {a : α}, P ts a → L ts [a])
    (hcons : ∀ {ts us : List PlacedToken} {comma : PlacedToken} {a : α} {as : List α}, P ts a →
      comma.token = .sign .comma → L us as → L (ts ++ comma :: us) (a :: as)) :
    ∀ (n : Nat) (l : Span), Passes l (Reader.separated t item n) L
  | 0, l => .pure hnil
  | n + 1, l => by
    unfold Reader.separated
    refine .at? fun b => .ite (fun _ => .pure hnil) fun _ => .bind (hitem l) fun ts a ha => ?_
    refine .eat_ite (fun comma hc => ?_) (.pure (by simpa using hone ha))
    exact .bind (separated hitem hnil hone hcons n _) fun us as has =>
      .pure (by simpa using hcons ha hc has)

end Repetition

end Passes

end LivePatch
