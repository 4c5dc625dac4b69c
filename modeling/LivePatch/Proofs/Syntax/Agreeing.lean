/-
Readers without a bound on the tokens and readers with one. Where the bound exceeds the number of tokens
left, both come to the same. There is a rule for each way in which readers are put together, and one for
loops: as a lap that goes on has passed a token, the bound on the laps is never used up.
-/
import LivePatch.Proofs.Syntax.Attempt
import LivePatch.Proofs.Syntax.Sound

namespace LivePatch

theorem Reader.outcome_of_ok {α : Type} {r : Reader α} {a : α} {c c' : Cursor} (h : r c = .ok a c') :
    r.outcome c = (.ok a, c') := by
  unfold outcome
  rw [h]

theorem Reader.outcome_of_error {α : Type} {r : Reader α} {e : SyntaxError} {c c' : Cursor}
    (h : r c = .error e c') : r.outcome c = (.error e, c') := by
  unfold outcome
  rw [h]

/-- A rule for a reader with what comes behind it says what the reader passes by itself. -/
theorem Passes.alone {α : Type} {l : Span} {r : Reader α} {P : List PlacedToken → α → Prop}
    (h : Passes l (r >>= Pure.pure) P) : Passes l r P := by
  rwa [bind_pure] at h

namespace Attempt

variable {α β : Type}

/-! ## Outcomes -/

/-- From some depth on, the reader comes to the outcome. -/
def Comes (m : Nat → Attempt α) (c : Cursor) (out : Except SyntaxError α × Cursor) : Prop :=
  ∃ d₀, ∀ d, d₀ ≤ d → m d c = some out

namespace Comes

variable {m : Nat → Attempt α} {f : Nat → α → Attempt β} {c c' : Cursor}

/-- One more call makes no difference. -/
theorem deeper_iff {out : Except SyntaxError α × Cursor} : Comes (fun d => m (d + 1)) c out ↔ Comes m c out := by
  constructor
  · rintro ⟨d₀, h⟩
    refine ⟨d₀ + 1, fun d hd => ?_⟩
    obtain ⟨d, rfl⟩ : ∃ k, d = k + 1 := ⟨d - 1, by omega⟩
    exact h d (by omega)
  · rintro ⟨d₀, h⟩
    exact ⟨d₀, fun d hd => h (d + 1) (by omega)⟩

theorem bind_of_ok {m : Attempt α} {a : α} (h : m c = some (.ok a, c')) (f : α → Attempt β) :
    (m >>= f) c = f a c' := by
  show (m c).bind _ = _
  rw [h]
  rfl

theorem bind_of_error {m : Attempt α} {e : SyntaxError} (h : m c = some (.error e, c')) (f : α → Attempt β) :
    (m >>= f) c = some (.error e, c') := by
  show (m c).bind _ = _
  rw [h]
  rfl

/-- Behind a success, what comes of two readers is what comes of the second. -/
theorem bind_iff {a : α} (h : Comes m c (.ok a, c')) {out : Except SyntaxError β × Cursor} :
    Comes (fun d => m d >>= f d) c out ↔ Comes (f · a) c' out := by
  obtain ⟨d₀, h⟩ := h
  constructor
  · rintro ⟨d₁, h'⟩
    exact ⟨max d₀ d₁, fun d hd => (bind_of_ok (h d (by omega)) (f d)).symm.trans (h' d (by omega))⟩
  · rintro ⟨d₁, h'⟩
    exact ⟨max d₀ d₁, fun d hd => (bind_of_ok (h d (by omega)) (f d)).trans (h' d (by omega))⟩

/-- A failure of the first of two readers is the failure of both. -/
theorem bind_error {e : SyntaxError} (h : Comes m c (.error e, c')) :
    Comes (fun d => m d >>= f d) c (.error e, c') := by
  obtain ⟨d₀, h⟩ := h
  exact ⟨d₀, fun d hd => bind_of_error (h d hd) (f d)⟩

end Comes

/-- Whatever the cursor, the reader comes to an outcome. A success has passed tokens at the front of those
left, which satisfy `P` together with the result; a failure stands at the token that its fault names. -/
def Returns (m : Nat → Attempt α) (P : List PlacedToken → α → Prop) : Prop :=
  ∀ c, ∃ out c', Comes m c (out, c') ∧ ∃ ts, c.rest = ts ++ c'.rest ∧
    match out with
    | .ok a => P ts a
    | .error e => e.Stands c'.rest

/-- Every call comes to an outcome, and a success has passed a token. -/
def Advances (m : Nat → Attempt α) : Prop := Returns m fun ts _ => ts ≠ []

/-- The loop goes on lap by lap. Every lap comes to an outcome: one that goes on has passed a token, and the
loop comes to what it comes to from there; one that leaves ends the loop with its result, and one that fails
ends the loop with its fault. -/
structure Loops (go : Nat → α → Attempt β) (lap : Nat → α → Attempt (Lap α β)) : Prop where
  returns : ∀ a, Returns (lap · a) fun ts o => ∀ a', o = .again a' → ts ≠ []
  again : ∀ {a a' : α} {c c' : Cursor}, Comes (lap · a) c (.ok (.again a'), c') →
    ∀ out, Comes (go · a) c out ↔ Comes (go · a') c' out
  leave : ∀ {a : α} {b : β} {c c' : Cursor}, Comes (lap · a) c (.ok (.leave b), c') →
    Comes (go · a) c (.ok b, c')
  fail : ∀ {a : α} {e : SyntaxError} {c c' : Cursor}, Comes (lap · a) c (.error e, c') →
    Comes (go · a) c (.error e, c')

/-! ## Agreement -/

/-- Wherever fewer than `n` tokens are left, the reader without a bound comes to what the one with a bound
comes to. -/
def Agrees (n : Nat) (m : Nat → Attempt α) (r : Reader α) : Prop :=
  ∀ c : Cursor, c.rest.length < n → Comes m c (r.outcome c)

namespace Agrees

variable {n : Nat} {m : Nat → Attempt α} {r : Reader α} {f : Nat → α → Attempt β} {g : α → Reader β}
  {t : Token}

theorem mono {k : Nat} (h : Agrees n m r) (hk : k ≤ n) : Agrees k m r :=
  fun c hc => h c (Nat.lt_of_lt_of_le hc hk)

/-- No list has fewer than no tokens. -/
theorem of_le_zero (h : n ≤ 0) : Agrees n m r := fun _ hc => absurd (Nat.lt_of_lt_of_le hc h) (Nat.not_lt_zero _)

theorem deeper (h : Agrees n (fun d => m (d + 1)) r) : Agrees n m r :=
  fun c hc => Comes.deeper_iff.1 (h c hc)

theorem lift (n : Nat) (r : Reader α) : Agrees n (fun _ => (liftM r : Attempt α)) r :=
  fun _ _ => ⟨0, fun _ _ => rfl⟩

theorem pure {a : α} : Agrees n (fun _ => Pure.pure a) (Pure.pure a) := fun _ _ => ⟨0, fun _ _ => rfl⟩

theorem throw {e : SyntaxError} : Agrees n (fun _ => (MonadExcept.throw e : Attempt α)) (MonadExcept.throw e) :=
  fun _ _ => ⟨0, fun _ _ => rfl⟩

/-- Behind the first of two readers there are fewer tokens left, by those that it has passed. -/
theorem bind {P : List PlacedToken → α → Prop} (hm : Agrees n m r) (hr : ∀ l, Passes l r P)
    (hf : ∀ ts a, P ts a → Agrees (n - ts.length) (f · a) (g a)) :
    Agrees n (fun d => m d >>= f d) (r >>= g) := by
  intro c hc
  have hcome := hm c hc
  cases hrun : r c with
  | ok a c' =>
    obtain ⟨ts, hts, -, ha⟩ := (hr c.last).of_ok hrun
    -- what is left behind the first reader is shorter by `ts`
    have hlength := congrArg List.length hts
    rw [List.length_append] at hlength
    rw [Reader.outcome_of_ok hrun] at hcome
    have hout : (r >>= g).outcome c = (g a).outcome c' := by
      unfold Reader.outcome
      rw [LivePatch.bind_of_ok hrun]
    rw [hout]
    exact hcome.bind_iff.2 (hf ts a ha c' (by omega))
  | error e c' =>
    rw [Reader.outcome_of_error hrun] at hcome
    rw [Reader.outcome_of_error (LivePatch.bind_of_error hrun g)]
    exact hcome.bind_error

/-- Where it does not matter how much the first reader has passed. -/
theorem keep {P : List PlacedToken → α → Prop} (hm : Agrees n m r) (hr : ∀ l, Passes l r P)
    (hf : ∀ a, Agrees n (f · a) (g a)) : Agrees n (fun d => m d >>= f d) (r >>= g) :=
  hm.bind hr fun ts a _ => (hf a).mono (Nat.sub_le n ts.length)

theorem ite {p : Prop} [Decidable p] {m' : Nat → Attempt α} {r' : Reader α} (h : p → Agrees n m r)
    (h' : ¬ p → Agrees n m' r') : Agrees n (fun d => if p then m d else m' d) (if p then r else r') := by
  split
  · exact h ‹_›
  · exact h' ‹_›

/-! ### Single tokens -/

theorem expectAs {e : Expectation} {f : Nat → Span → Attempt β} {g : Span → Reader β}
    (hf : ∀ s, Agrees (n - 1) (f · s) (g s)) :
    Agrees n (fun d => liftM (Reader.expectAs t e) >>= f d) (Reader.expectAs t e >>= g) := by
  have hpass : ∀ l, Passes l (Reader.expectAs t e) fun ts _ => ts.length = 1 :=
    fun l => .alone (.expectAs fun p _ => .pure rfl)
  exact (lift n _).bind hpass fun ts s hts => by rw [hts]; exact hf s

theorem expect {f : Nat → Span → Attempt β} {g : Span → Reader β} (hf : ∀ s, Agrees (n - 1) (f · s) (g s)) :
    Agrees n (fun d => liftM (Reader.expect t) >>= f d) (Reader.expect t >>= g) := expectAs hf

theorem ident {e : Expectation} {f : Nat → Name × Span → Attempt β} {g : Name × Span → Reader β}
    (hf : ∀ x, Agrees (n - 1) (f · x) (g x)) :
    Agrees n (fun d => liftM (Reader.ident e) >>= f d) (Reader.ident e >>= g) := by
  have hpass : ∀ l, Passes l (Reader.ident e) fun ts _ => ts.length = 1 :=
    fun l => .alone (.ident fun p x _ => .pure rfl)
  exact (lift n _).bind hpass fun ts x hts => by rw [hts]; exact hf x

theorem eat {f : Nat → Bool → Attempt β} {g : Bool → Reader β} (hyes : Agrees (n - 1) (f · true) (g true))
    (hno : Agrees n (f · false) (g false)) :
    Agrees n (fun d => liftM (Reader.eat t) >>= f d) (Reader.eat t >>= g) := by
  have hpass : ∀ l, Passes l (Reader.eat t) fun ts b => ts.length = if b then 1 else 0 :=
    fun l => .alone (.eat (fun p _ => .pure rfl) (.pure rfl))
  refine (lift n _).bind hpass fun ts b hts => ?_
  rw [hts]
  cases b with
  | true => exact hyes
  | false => exact hno

/-- The same where it decides what is read. -/
theorem eat_ite {m' : Nat → Attempt α} {r' : Reader α} (hyes : Agrees (n - 1) m r) (hno : Agrees n m' r') :
    Agrees n (fun d => do if ← liftM (Reader.eat t) then m d else m' d) (do if ← Reader.eat t then r else r') :=
  eat hyes hno

theorem at? {f : Nat → Bool → Attempt β} {g : Bool → Reader β} (hf : ∀ b, Agrees n (f · b) (g b)) :
    Agrees n (fun d => liftM (Reader.at? t) >>= f d) (Reader.at? t >>= g) :=
  (lift n _).keep (P := fun _ _ => True) (fun _ => .alone (.at? fun _ => .pure trivial)) hf

theorem peek {f : Nat → Option Token → Attempt β} {g : Option Token → Reader β}
    (hf : ∀ o, Agrees n (f · o) (g o)) :
    Agrees n (fun d => liftM Reader.peek >>= f d) (Reader.peek >>= g) :=
  (lift n _).keep (P := fun _ _ => True) (fun _ => .alone (.peek fun _ => .pure trivial)) hf

theorem last {f : Nat → Span → Attempt β} {g : Span → Reader β} (hf : ∀ s, Agrees n (f · s) (g s)) :
    Agrees n (fun d => liftM Reader.last >>= f d) (Reader.last >>= g) :=
  (lift n _).keep (P := fun _ _ => True) (fun _ => .alone (.last (.pure trivial))) hf

theorem docs {f : Nat → Option String → Attempt β} {g : Option String → Reader β}
    (hf : ∀ doc, Agrees n (f · doc) (g doc)) :
    Agrees n (fun d => liftM Reader.docs >>= f d) (Reader.docs >>= g) := (lift n _).keep (fun _ => .docs) hf

/-- A token that stands for an operator is passed; before any other one, the readers are as given. -/
theorem operator {op? : Token → Option BinaryOp} {f : Nat → BinaryOp → Attempt α} {g : BinaryOp → Reader α}
    (hno : Agrees n m r) (hyes : ∀ op, Agrees (n - 1) (f · op) (g op)) :
    Agrees n (fun d => do
      match (← liftM Reader.peek).bind op? with
      | none => m d
      | some op =>
        liftM Reader.advance
        f d op) (do
      match (← Reader.peek).bind op? with
      | none => r
      | some op =>
        Reader.advance
        g op) := by
  rintro ⟨l, rest⟩ hc
  have hpeek : Comes (fun _ => (liftM Reader.peek : Attempt (Option Token))) ⟨l, rest⟩
      (.ok (rest.head?.map (·.token)), ⟨l, rest⟩) := ⟨0, fun _ _ => rfl⟩
  refine hpeek.bind_iff.2 ?_
  cases rest with
  | nil => exact hno _ hc
  | cons p rest =>
    show Comes (fun d => match (some p.token).bind op? with | none => m d | some op => _) _
      (Reader.outcome (match (some p.token).bind op? with | none => r | some op => _) _)
    rw [Option.bind_some]
    cases op? p.token with
    | none => exact hno _ hc
    | some op => exact (Comes.bind_iff ⟨0, fun _ _ => rfl⟩).2 (hyes op ⟨p.span, rest⟩ (Nat.lt_sub_of_add_lt hc))

end Agrees

/-! ## Loops -/

section Loop

variable {go : Nat → α → Attempt β} {lap : Nat → α → Attempt (Lap α β)}

/-- A loop without a bound on its laps agrees with one that has one. -/
theorem Agrees.loop {N : Nat} {f : Nat → α → Reader β} {rlap : Nat → α → Reader (Lap α β)}
    (hgo : ∀ d a, go (d + 1) a = lap d a >>= Lap.next (go d))
    (hf : ∀ k a, f (k + 1) a = rlap k a >>= Lap.next (f k))
    (hpass : ∀ k a l, Passes l (rlap k a) fun ts o => ∀ a', o = .again a' → ts ≠ [])
    (hlap : ∀ n k a, n ≤ k + 1 → n ≤ N → Agrees n (lap · a) (rlap k a)) :
    ∀ {n k : Nat} (a : α), n ≤ k → n ≤ N → Agrees n (go · a) (f k a)
  | n, 0, a, hk, _ => of_le_zero hk
  | n, k + 1, a, hk, hN => by
    refine deeper ?_
    simp only [hgo, hf]
    refine (hlap n k a hk hN).bind (hpass k a) fun ts o ho => ?_
    cases o with
    | leave b => exact pure
    | again a' =>
      -- the lap has passed a token, so that one lap less is enough for those that are left
      have hpos := List.length_pos_of_ne_nil (ho a' rfl)
      exact loop hgo hf hpass hlap a' (by omega) (by omega)

theorem Loops.of_returns (hgo : ∀ d a, go (d + 1) a = lap d a >>= Lap.next (go d))
    (h : ∀ a, Returns (lap · a) fun ts o => ∀ a', o = .again a' → ts ≠ []) : Loops go lap := by
  constructor
  · exact h
  · intro a a' c c' ha out
    rw [← Comes.deeper_iff]
    simp only [hgo]
    exact ha.bind_iff
  · intro a b c c' hb
    rw [← Comes.deeper_iff]
    simp only [hgo]
    exact hb.bind_iff.2 ⟨0, fun _ _ => rfl⟩
  · intro a e c c' he
    rw [← Comes.deeper_iff]
    simp only [hgo]
    exact he.bind_error

end Loop

/-- A reader that agrees with one of every bound comes to an outcome. -/
theorem Returns.of_agrees {m : Nat → Attempt α} {P : List PlacedToken → α → Prop}
    (h : ∀ n, ∃ r, Agrees n m r ∧ ∀ l, Passes l r P) : Returns m P := by
  intro c
  obtain ⟨r, hm, hr⟩ := h (c.rest.length + 1)
  have hcome := hm c (Nat.lt_succ_self _)
  cases hrun : r c with
  | ok a c' =>
    obtain ⟨ts, hts, -, ha⟩ := (hr c.last).of_ok hrun
    rw [Reader.outcome_of_ok hrun] at hcome
    exact ⟨_, c', hcome, ts, hts, ha⟩
  | error e c' =>
    obtain ⟨⟨ts, hts⟩, he⟩ := (hr c.last).of_error hrun
    rw [Reader.outcome_of_error hrun] at hcome
    exact ⟨_, c', hcome, ts, hts, he⟩

end Attempt

end LivePatch
