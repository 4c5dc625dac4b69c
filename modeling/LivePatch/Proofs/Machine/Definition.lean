/-
The definitions of functions. A definition evaluates its default expressions, from left to right, and then makes
a function with their values. Nothing else that is done in a run brings code to the heap. So whatever function
comes to be in the course of a run has been made by a definition that was carried out in it, and has the code of this
definition together with the values that its default expressions had.
-/
import LivePatch.Proofs.Machine.Parts
import LivePatch.Proofs.Machine.Target

namespace LivePatch

/-- The carrying out of a definition: what is defined, and under which limit and on which machine it begins. -/
structure Definition where
  limit : Nat
  frame : Frame
  name : Name
  params : List Param
  body : List Stmt
  doc : Option String
  start : Machine

namespace Definition

variable (b : Definition)

def moment : Moment := ⟨.define b.frame b.name b.params b.body b.doc, b.start⟩

/-- The code that the definition gives to the function that it makes. -/
def code : FunctionCode := ⟨b.params.map (·.name), b.body⟩

/-- The default expressions, evaluated from left to right, have the values, and leave the machine `k`. -/
def Gives (vs : List Value) (k : Machine) : Prop :=
  Expr.evalAll (Run.call b.limit) b.frame (b.params.filterMap (·.default)) b.start = .ok vs k

/-- The function that the definition makes is the next one when the defaults are evaluated. -/
def Makes (f : FunctionRef) : Prop := ∃ vs k, b.Gives vs k ∧ k.heap.functions.next = f

/-- Whether the definition can be written down. -/
def wellFormed : Bool := Spelling.defaultsLast b.params && Stmt.allWellFormed b.body

/-- The code is that of the definition, and the defaults are the values that its default expressions had. -/
structure Fits (state : FunctionState) : Prop where
  code : state.code = b.code
  defaults : ∃ k, b.Gives state.defaults k

variable {b}

theorem Fits.of_program {o o' : FunctionObject} (h : b.Fits o.state) (he : o'.program = o.program) :
    b.Fits o'.state := by
  unfold FunctionObject.program at he
  obtain ⟨-, he⟩ := Prod.mk.inj he
  obtain ⟨hcode, hdefaults⟩ := Prod.mk.inj he
  exact ⟨hcode.trans h.code, hdefaults ▸ h.defaults⟩

theorem body_wellFormed (h : b.wellFormed = true) : Stmt.allWellFormed b.body = true :=
  (Bool.and_eq_true_iff.1 h).2

end Definition

/-! ## Supplies -/

/-- Which definitions have supplied the code that a function has. -/
abbrev Supply := FunctionRef → Definition → Prop

namespace Supply

variable {S T : Supply} {f : FunctionRef} {state : FunctionState} {h k : Heap}

/-- A definition that can be written down has supplied the function with the code and the defaults. -/
def Serves (S : Supply) (f : FunctionRef) (state : FunctionState) : Prop :=
  ∃ b, S f b ∧ b.wellFormed = true ∧ b.Fits state

/-- Every function of the heap has what it has been supplied with. -/
def Held (S : Supply) (h : Heap) : Prop :=
  ∀ f : FunctionRef, f.index < h.functions.size → S.Serves f (h.function f).state

theorem Serves.mono (h : S.Serves f state) (hST : ∀ b, S f b → T f b) : T.Serves f state :=
  have ⟨b, hb, hrest⟩ := h
  ⟨b, hST b hb, hrest⟩

theorem Serves.of_program {o o' : FunctionObject} (h : S.Serves f o.state) (he : o'.program = o.program) :
    S.Serves f o'.state :=
  have ⟨b, hb, hw, hfits⟩ := h
  ⟨b, hb, hw, hfits.of_program he⟩

theorem Serves.body_wellFormed (h : S.Serves f state) : Stmt.allWellFormed state.code.body = true := by
  obtain ⟨b, -, hw, hfits⟩ := h
  rw [hfits.code]
  exact Definition.body_wellFormed hw

theorem Held.mono (h : S.Held k) (hST : ∀ f b, S f b → T f b) : T.Held k := fun f hf => (h f hf).mono (hST f)

theorem Held.of_same (h : S.Held k) {l : Heap} (hs : k.SamePrograms l) : S.Held l :=
  fun f hf => (h f (hs.size ▸ hf)).of_program (hs.get f)

/-- Where every function has been supplied, all code can be written down. -/
theorem Held.codeWellFormed (h : S.Held k) : k.CodeWellFormed := by
  intro f
  by_cases hf : f.index < k.functions.size
  · exact (h f hf).body_wellFormed
  · rw [show k.function f = default from k.functions.get_of_size_le (Nat.not_lt.1 hf)]
    rfl

end Supply

/-! ## Heaps that grow by definitions -/

/-- From the first heap to the second, the functions have kept their programs, and every new one has what it has
been supplied with. -/
structure Heap.Grows (S : Supply) (h k : Heap) : Prop where
  kept : h.functions.Keeps FunctionObject.program k.functions
  new : ∀ f : FunctionRef, h.functions.size ≤ f.index → f.index < k.functions.size →
    S.Serves f (k.function f).state

namespace Heap.Grows

variable {S T : Supply} {h k l : Heap}

theorem of_same (hs : h.SamePrograms k) : h.Grows S k where
  kept := ⟨Nat.le_of_eq hs.size.symm, fun f _ => hs.get f⟩
  new _ hle hlt := absurd (hs.size ▸ hlt) (Nat.not_lt.2 hle)

theorem trans (a : h.Grows S k) (b : k.Grows S l) : h.Grows S l where
  kept := a.kept.trans b.kept
  new f hle hlt := by
    by_cases hf : f.index < k.functions.size
    · exact (a.new f hle hf).of_program (b.kept.get f hf)
    · exact b.new f (Nat.not_lt.1 hf) hlt

theorem codeWellFormed (hg : h.Grows S k) (hh : h.CodeWellFormed) : k.CodeWellFormed := by
  intro f
  by_cases hf : f.index < h.functions.size
  · have he := congrArg (fun p => p.2.1) (hg.kept.get f hf)
    rw [show (k.function f).state.code = (h.function f).state.code from he]
    exact hh f
  · by_cases hk : f.index < k.functions.size
    · exact (hg.new f (Nat.not_lt.1 hf) hk).body_wellFormed
    · rw [show k.function f = default from k.functions.get_of_size_le (Nat.not_lt.1 hk)]
      rfl

/-- What the functions of the first heap have been supplied with they still have, and the others have been
supplied as they came to be. -/
theorem held (hg : h.Grows T k) (hh : S.Held h)
    (hST : ∀ f b, h.functions.size ≤ f.index → T f b → S f b) : S.Held k := by
  intro f hk
  by_cases hf : f.index < h.functions.size
  · exact (hh f hf).of_program (hg.kept.get f hf)
  · exact (hg.new f (Nat.not_lt.1 hf) hk).mono fun b => hST f b (Nat.not_lt.1 hf)

/-- The function that a definition makes. -/
theorem newFunction {b : Definition} {o : FunctionObject} (hb : S h.functions.next b) (hw : b.wellFormed = true)
    (hfits : b.Fits o.state) : h.Grows S (h.newFunction o).2 where
  kept := ⟨by rw [show (h.newFunction o).2.functions.size = _ from Arena.size_push ..]; exact Nat.le_succ _,
    fun f hf => congrArg FunctionObject.program (Arena.get_push_of_lt h.functions o hf)⟩
  new f hle hlt := by
    rw [show (h.newFunction o).2.functions.size = _ from Arena.size_push ..] at hlt
    obtain rfl : f = h.functions.next := by
      obtain ⟨i⟩ := f
      exact congrArg Ref.mk (Nat.le_antisymm (Nat.le_of_lt_succ hlt) hle)
    refine ⟨b, hb, hw, ?_⟩
    rw [show (h.newFunction o).2.function h.functions.next = o from Arena.get_push_next ..]
    exact hfits

end Heap.Grows

namespace Activity

variable {limit : Nat} {m : Machine}

/-! ## Definitions that are carried out -/

/-- Whether the code that an activity runs can be written down. -/
def wellFormed : Activity → Bool
  | define _ _ params body _ => Spelling.defaultsLast params && Stmt.allWellFormed body
  | run _ s => s.wellFormed
  | runAll _ ss => Stmt.allWellFormed ss
  | _ => true

theorem exprParts_wellFormed {frame : Frame} {e : Expr} {q : Moment} (hq : q ∈ exprParts limit frame m e) :
    q.activity.wellFormed = true := by
  cases e with
  | int | str | bool | none | ident => cases hq
  | attr | unary =>
    rw [List.mem_singleton.1 hq]
    rfl
  | call callee args =>
    rcases List.mem_cons.1 hq with rfl | hq
    · rfl
    obtain ⟨f, m₁, -, hq⟩ := Run.mem_andThen.1 hq
    rcases List.mem_cons.1 hq with rfl | hq
    · rfl
    obtain ⟨vs, m₂, -, hq⟩ := Run.mem_andThen.1 hq
    rw [List.mem_singleton.1 hq]
    rfl
  | binary op left right =>
    rcases List.mem_cons.1 hq with rfl | hq
    · rfl
    obtain ⟨v, m₁, -, hq⟩ := Run.mem_andThen.1 hq
    rw [eq_of_mem_rightPart hq]
    rfl

theorem callParts_wellFormed {n : Nat} {callee : Value} {args : List Value} {q : Moment}
    (hq : q ∈ callParts n args m callee) : q.activity.wellFormed = true := by
  cases callee with
  | function | method =>
    rw [List.mem_singleton.1 hq]
    rfl
  | type c =>
    unfold callParts at hq
    dsimp only at hq
    split at hq
    · rw [List.mem_singleton.1 hq]
      rfl
    · rw [List.mem_singleton.1 hq]
      rfl
    · cases hq
  | _ => cases hq

theorem stmtParts_wellFormed {frame : Frame} {s : Stmt} (hs : s.wellFormed = true) {q : Moment}
    (hq : q ∈ stmtParts limit frame m s) : q.activity.wellFormed = true := by
  cases s with
  | bind | raise | expr =>
    rw [List.mem_singleton.1 hq]
    rfl
  | leave value =>
    cases value with
    | none => cases hq
    | some e =>
      simp only [stmtParts] at hq
      split at hq
      · rw [List.mem_singleton.1 hq]
        rfl
      · cases hq
  | assign target value =>
    rcases List.mem_cons.1 hq with rfl | hq
    · rfl
    obtain ⟨v, m₁, -, hq⟩ := Run.mem_andThen.1 hq
    rw [List.mem_singleton.1 hq]
    rfl
  | function x params body doc =>
    simp only [Stmt.wellFormed, Bool.and_eq_true] at hs
    rw [List.mem_singleton.1 hq]
    exact Bool.and_eq_true_iff.2 ⟨hs.1.1.2, hs.2⟩
  | classDef x bases body doc =>
    simp only [Stmt.wellFormed, Bool.and_eq_true] at hs
    rcases List.mem_cons.1 hq with rfl | hq
    · rfl
    obtain ⟨cs, m₁, -, hq⟩ := Run.mem_andThen.1 hq
    rw [List.mem_singleton.1 hq]
    exact hs.2
  | branch cond whenTrue whenFalse =>
    simp only [Stmt.wellFormed, Bool.and_eq_true] at hs
    rcases List.mem_cons.1 hq with rfl | hq
    · rfl
    obtain ⟨v, m₁, -, hq⟩ := Run.mem_andThen.1 hq
    rw [List.mem_singleton.1 hq]
    show Stmt.allWellFormed (if v.isTruthy then whenTrue else whenFalse) = true
    split
    · exact hs.1.2
    · exact hs.2

/-- The parts of code that can be written down can be written down. The body of a function comes from the
heap. -/
theorem parts_wellFormed {a : Activity} (ha : a.wellFormed = true) (hm : m.heap.CodeWellFormed) {q : Moment}
    (hq : q ∈ a.parts limit m) : q.activity.wellFormed = true := by
  cases a with
  | run frame s => exact stmtParts_wellFormed ha hq
  | define frame name params body doc =>
    rw [List.mem_singleton.1 hq]
    rfl
  | runAll frame ss =>
    cases ss with
    | nil => cases hq
    | cons s ss =>
      obtain ⟨hs, hss⟩ := Bool.and_eq_true_iff.1 ha
      rcases List.mem_cons.1 hq with rfl | hq
      · exact hs
      obtain ⟨flow, m₁, -, hq⟩ := Run.mem_andThen.1 hq
      split at hq
      · rw [List.mem_singleton.1 hq]
        exact hss
      · cases hq
  | invoke f args =>
    simp only [parts, bodyPart] at hq
    split at hq
    · cases hq
    split at hq
    · cases hq
    · rw [List.mem_singleton.1 hq]
      exact hm f
  | eval frame e => exact exprParts_wellFormed hq
  | evalAll frame es =>
    cases es with
    | nil => cases hq
    | cons e es =>
      rcases List.mem_cons.1 hq with rfl | hq
      · rfl
      obtain ⟨v, m₁, -, hq⟩ := Run.mem_andThen.1 hq
      rw [List.mem_singleton.1 hq]
      rfl
  | basesOf frame name es =>
    cases es with
    | nil => cases hq
    | cons e es =>
      rcases List.mem_cons.1 hq with rfl | hq
      · rfl
      obtain ⟨v, m₁, -, hq⟩ := Run.mem_andThen.1 hq
      split at hq
      · rw [List.mem_singleton.1 hq]
        rfl
      · cases hq
  | assign frame v target =>
    cases target with
    | attr object x =>
      rw [List.mem_singleton.1 hq]
      rfl
    | _ => cases hq
  | call n callee args =>
    cases n with
    | zero => cases hq
    | succ n => exact callParts_wellFormed hq

end Activity

/-! ## What a run brings -/

/-- The definitions that are carried out in the course of an activity, with the functions that they make. -/
def Moment.births (limit : Nat) (root : Moment) : Supply := fun f b =>
  b.limit = limit ∧ Activity.Happens limit root b.moment ∧ b.Makes f

namespace Activity

variable {limit : Nat}

theorem births_of_part {p q : Moment} (hq : q ∈ p.activity.parts limit p.machine) {f : FunctionRef}
    {b : Definition} (hb : q.births limit f b) : p.births limit f b :=
  ⟨hb.1, (Happens.start.part hq).trans hb.2.1, hb.2.2⟩

/-- The definition of a function brings to the heap what its default expressions bring, and the function. -/
theorem define_grows {frame : Frame} {name : Name} {params : List Param} {body : List Stmt} {doc : Option String}
    {m : Machine} {S : Supply} (hw : (define frame name params body doc).wellFormed = true)
    (hS : ∀ f b, (Moment.mk (define frame name params body doc) m).births limit f b → S f b)
    (hdefaults : m.heap.Grows S ((evalAll frame (params.filterMap (·.default))).final limit m).heap) :
    m.heap.Grows S ((define frame name params body doc).final limit m).heap := by
  have hdef : (define frame name params body doc).final limit m =
      Run.final (Run.defineFunction (Run.call limit) frame name params body doc m) := rfl
  have hargs : (evalAll frame (params.filterMap (·.default))).final limit m =
      Run.final (Expr.evalAll (Run.call limit) frame (params.filterMap (·.default)) m) := rfl
  rw [hdef, Run.defineFunction]
  rw [hargs] at hdefaults
  cases hr : Expr.evalAll (Run.call limit) frame (params.filterMap (·.default)) m with
  | error e k =>
    rw [hr] at hdefaults
    rw [bind_of_error hr]
    exact hdefaults
  | ok vs k =>
    rw [hr] at hdefaults
    rw [bind_of_ok hr]
    let b : Definition := ⟨limit, frame, name, params, body, doc, m⟩
    have hgives : b.Gives vs k := hr
    exact hdefaults.trans (.newFunction (hS _ b ⟨rfl, .start, vs, k, hgives, rfl⟩) hw ⟨rfl, k, hgives⟩)

/-- Where code can be written down, what the parts bring to the heap is what the whole brings to it. -/
theorem Done.grows {S : Supply} {d : Nat} {givenUp : Prop} {m : Machine} {qs : List Moment}
    {r : EStateM.Result (Halt RunError) Machine Unit} (hdone : Done limit d givenUp m qs r)
    (hm : m.heap.CodeWellFormed)
    (hqs : ∀ q ∈ qs, q.machine.heap.CodeWellFormed →
      q.machine.heap.Grows S (q.activity.final limit q.machine).heap) :
    (∀ q ∈ qs, m.heap.Grows S q.machine.heap) ∧ m.heap.Grows S (Run.final r).heap := by
  obtain ⟨hparts, hend⟩ := hdone.advance (R := fun h k => h.CodeWellFormed → h.Grows S k)
    (fun hs _ => .of_same hs) (fun h₁ h₂ hh => (h₁ hh).trans (h₂ ((h₁ hh).codeWellFormed hh))) hqs
  exact ⟨fun q hq => hparts q hq hm, hend hm⟩

/-- Whatever an activity brings to the heap has been supplied by definitions that are carried out in its course.
By induction over what happens: only a definition does more than its parts. -/
theorem final_grows {S : Supply} (p : Moment) (hw : p.activity.wellFormed = true)
    (hp : p.machine.heap.CodeWellFormed) (hS : ∀ f b, p.births limit f b → S f b) :
    p.machine.heap.Grows S (p.activity.final limit p.machine).heap := by
  refine induct limit (P := fun p => p.activity.wellFormed = true → p.machine.heap.CodeWellFormed →
    (∀ f b, p.births limit f b → S f b) → p.machine.heap.Grows S (p.activity.final limit p.machine).heap) ?_
    p hw hp hS
  intro p ih hw hp hS
  -- what is no definition does nothing to the functions but what its parts do
  by_cases ha : p.activity.IsDefinition
  · obtain ⟨a, m⟩ := p
    cases a with
    | define frame name params body doc =>
      refine define_grows hw hS (ih ⟨evalAll frame (params.filterMap (·.default)), m⟩ (List.mem_singleton_self _) rfl
        hp fun f b hb => ?_)
      exact hS f b (births_of_part (p := ⟨define frame name params body doc, m⟩) (List.mem_singleton_self _) hb)
    | _ => exact ha.elim
  · rw [← final_ending]
    refine ((parts_done ha p.machine).grows hp fun q hq hk => ?_).2
    exact ih q hq (parts_wellFormed hw hp hq) hk fun f b hb => hS f b (births_of_part hq hb)

/-- At every moment in the course of an activity, what has come to the heap since its beginning has been supplied
by definitions that are carried out in its course. -/
theorem Happens.grows {root p : Moment} (h : Happens limit root p) (hw : root.activity.wellFormed = true)
    (hroot : root.machine.heap.CodeWellFormed) :
    p.activity.wellFormed = true ∧ root.machine.heap.Grows (root.births limit) p.machine.heap := by
  induction h with
  | start => exact ⟨hw, .of_same (.refl _)⟩
  | @part p q h hq ih =>
    obtain ⟨hpw, hgrows⟩ := ih
    have hp := hgrows.codeWellFormed hroot
    refine ⟨parts_wellFormed hpw hp hq, hgrows.trans ?_⟩
    by_cases ha : p.activity.IsDefinition
    · obtain ⟨a, m⟩ := p
      cases a with
      | define frame name params body doc =>
        -- the defaults are evaluated before anything else is done
        rw [List.mem_singleton.1 hq]
        exact .of_same (.refl _)
      | _ => exact ha.elim
    · refine ((parts_done ha p.machine).grows hp fun q hq hk => ?_).1 q hq
      exact final_grows q (parts_wellFormed hpw hp hq) hk fun f b hb => ⟨hb.1, (h.part hq).trans hb.2.1, hb.2.2⟩

/-- The same holds when something has ended. -/
theorem Happens.grows_end {root p : Moment} (h : Happens limit root p) (hw : root.activity.wellFormed = true)
    (hroot : root.machine.heap.CodeWellFormed) :
    root.machine.heap.Grows (root.births limit) (p.activity.final limit p.machine).heap := by
  obtain ⟨hpw, hgrows⟩ := h.grows hw hroot
  exact hgrows.trans (final_grows p hpw (hgrows.codeWellFormed hroot) fun f b hb => ⟨hb.1, h.trans hb.2.1, hb.2.2⟩)

end Activity

end LivePatch
