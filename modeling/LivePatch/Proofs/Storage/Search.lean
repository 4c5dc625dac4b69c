/-
The search for the storage of a unit. A name has six forms in a directory, a package directory and five
files, in an order of preference. Which of them is the first in the first directory that has any decides
what is loaded, together with what comes of opening that file and reading it; nothing that stands later does,
not even when the file cannot be opened.
-/
import LivePatch.Storage.Load
import LivePatch.Proofs.Sequence

namespace LivePatch

namespace Storage

/-- The forms that the storage of a unit has in a directory. -/
inductive Form where
  | package | source | compiled | so | dylib | dll
  deriving DecidableEq, Repr

namespace Form

/-- All forms, the preferred ones first. -/
def all : List Form := [package, source, compiled, so, dylib, dll]

/-- Where storage of a form stands. -/
def path (root : Path) (x : Name) : Form → Path
  | package => root.join x
  | source => root.join (x ++ ".em")
  | compiled => root.join (x ++ ".emc")
  | so => root.join (x ++ ".so")
  | dylib => root.join (x ++ ".dylib")
  | dll => root.join (x ++ ".dll")

def kind : Form → StorageKind
  | package => .packageDirectory
  | source => .source
  | compiled => .compiled
  | so | dylib | dll => .native

/-- Storage of a form is there: a directory with the code of a package in it as a file, or a file. -/
def Present (fs : Files) (root : Path) (x : Name) : Form → Prop
  | package => fs.isDirectory (root.join x) = true ∧
    (fs.isFile ((root.join x).join "__init__.em") = true ∨ fs.isFile ((root.join x).join "__init__.emc") = true)
  | form => fs.isFile (form.path root x) = true

/-- What a load takes from storage of a form: all that a file holds, but of a native library only that it can
be opened. Nothing is taken from a package. -/
def contents (fs : Files) (root : Path) (x : Name) : Form → Except FileError (List UInt8)
  | package => .ok []
  | source => fs.read (source.path root x)
  | compiled => fs.read (compiled.path root x)
  | form => (fs.openFile (form.path root x)).map fun _ => []

namespace Reading

variable {location : Path} {bytes : List UInt8} {u : Except ModuleError CodeUnit}

end Reading

end Form

/-- Storage that a search comes upon first: there is none of any form in the directories before its own, and
none of the preferred forms in its own. -/
structure First (fs : Files) (x : Name) (search : List Path) (root : Path) (form : Form) : Prop where
  roots : ∃ before after, search = before ++ root :: after ∧ ∀ r ∈ before, ∀ f : Form, ¬f.Present fs r x
  forms : ∃ before after, Form.all = before ++ form :: after ∧ ∀ f ∈ before, ¬f.Present fs root x
  present : form.Present fs root x

end Storage

/-! ## One directory -/

namespace Storage

variable {fs : Files} {x : Name} {root : Path} {search : List Path} {form : Form}

theorem isPackage_iff {dir : Path} : isPackage fs dir = true ↔ fs.isDirectory dir = true ∧
    (fs.isFile (dir.join "__init__.em") = true ∨ fs.isFile (dir.join "__init__.emc") = true) := by
  have hem : fileName packageInit sourceExtension = "__init__.em" := by decide
  have hemc : fileName packageInit compiledExtension = "__init__.emc" := by decide
  unfold isPackage
  simp only [List.any_cons, List.any_nil, hem, hemc, Bool.and_eq_true, Bool.or_eq_true, Bool.or_false]

namespace Form

/-- The storage of one form. -/
def found? (fs : Files) (root : Path) (x : Name) : Form → Option (Except ModuleError Found)
  | package => if isPackage fs (root.join x) then some (.ok ⟨none, root.join x, .packageDirectory⟩) else none
  | source => file? fs root x "em" .source
  | compiled => file? fs root x "emc" .compiled
  | so => file? fs root x "so" .native
  | dylib => file? fs root x "dylib" .native
  | dll => file? fs root x "dll" .native

/-- What comes of storage of a form that is there: a package is given as it is, and a file is opened. -/
inductive Given (fs : Files) (root : Path) (x : Name) : Form → Except ModuleError Found → Prop
  | package : Given fs root x package (.ok ⟨none, root.join x, .packageDirectory⟩)
  | opened {form : Form} {contents : Except FileError (List UInt8)} (hp : form ≠ .package)
      (ho : fs.openFile (form.path root x) = .ok contents) :
      Given fs root x form (.ok ⟨some ⟨form.path root x, contents⟩, form.path root x, form.kind⟩)
  | shut {form : Form} {e : FileError} (hp : form ≠ .package)
      (ho : fs.openFile (form.path root x) = .error e) :
      Given fs root x form (.error (.file (form.path root x) e))

/-- A file is found exactly when it is there, and then it is opened. -/
theorem file?_spec (fs : Files) {form : Form} (hp : form ≠ .package) {extension : String}
    (hpath : form.path root x = root.join (x ++ ("." ++ extension))) :
    (¬fs.isFile (form.path root x) = true ∧ file? fs root x extension form.kind = none) ∨
      ∃ r, fs.isFile (form.path root x) = true ∧ file? fs root x extension form.kind = some r ∧
        form.Given fs root x r := by
  have hpath : root.join (fileName x extension) = form.path root x := by
    rw [hpath, fileName, String.append_assoc]
  unfold file?
  dsimp only
  rw [hpath]
  by_cases hf : fs.isFile (form.path root x) = true
  · rw [if_pos hf]
    cases ho : fs.openFile (form.path root x) with
    | ok contents => exact .inr ⟨_, hf, rfl, .opened hp ho⟩
    | error e => exact .inr ⟨_, hf, rfl, .shut hp ho⟩
  · exact .inl ⟨hf, if_neg hf⟩

/-- The storage of one form is found exactly when it is there. -/
theorem found?_spec (fs : Files) (root : Path) (x : Name) (form : Form) :
    (¬form.Present fs root x ∧ form.found? fs root x = none) ∨
      ∃ r, form.Present fs root x ∧ form.found? fs root x = some r ∧ form.Given fs root x r := by
  cases form with
  | package =>
    by_cases hp : isPackage fs (root.join x) = true
    · exact .inr ⟨_, isPackage_iff.mp hp, if_pos hp, .package⟩
    · exact .inl ⟨fun h => hp (isPackage_iff.mpr h), if_neg hp⟩
  | source | compiled | so | dylib | dll => exact file?_spec fs (by nofun) rfl

theorem found?_eq_none_iff : form.found? fs root x = none ↔ ¬form.Present fs root x := by
  rcases found?_spec fs root x form with ⟨hn, hf⟩ | ⟨r, hp, hf, -⟩
  · exact iff_of_true hf hn
  · exact iff_of_false (by rw [hf]; exact fun h => nomatch h) (fun hn => hn hp)

theorem given_of_found? {r : Except ModuleError Found} (h : form.found? fs root x = some r) :
    form.Present fs root x ∧ form.Given fs root x r := by
  rcases found?_spec fs root x form with ⟨-, hf⟩ | ⟨r', hp, hf, hg⟩
  · rw [hf] at h
    cases h
  · rw [hf] at h
    cases h
    exact ⟨hp, hg⟩

theorem mem_all (form : Form) : form ∈ all := by
  cases form <;> decide

end Form

theorem inRoot?_eq (fs : Files) (x : Name) (root : Path) :
    inRoot? fs x root = Form.all.findSome? (Form.found? fs root x) := by
  unfold inRoot? Form.all
  rw [List.findSome?_cons]
  by_cases hp : isPackage fs (root.join x) = true
  · rw [if_pos hp, show Form.package.found? fs root x = _ from if_pos hp]
  · rw [if_neg hp, show Form.package.found? fs root x = _ from if_neg hp]
    rfl

theorem inRoot?_eq_none_iff : inRoot? fs x root = none ↔ ∀ f : Form, ¬f.Present fs root x := by
  rw [inRoot?_eq, List.findSome?_eq_none_iff]
  exact ⟨fun h f => Form.found?_eq_none_iff.mp (h f f.mem_all), fun h f _ => Form.found?_eq_none_iff.mpr (h f)⟩

/-! ## A list of directories -/

/-- A search that comes upon storage ends there, whether it can be opened or not. -/
theorem First.given (h : First fs x search root form) : form.Given fs root x (inFiles fs x search) := by
  obtain ⟨⟨before, after, hs, hb⟩, ⟨fb, fa, hall, hfb⟩, hp⟩ := h
  obtain ⟨r, hf⟩ := Option.ne_none_iff_exists'.mp fun h => Form.found?_eq_none_iff.mp h hp
  have hroot : inRoot? fs x root = some r := by
    rw [inRoot?_eq, List.findSome?_eq_some_iff]
    exact ⟨fb, form, fa, hall, hf, fun f hm => Form.found?_eq_none_iff.mpr (hfb f hm)⟩
  have hfirst : search.findSome? (inRoot? fs x) = some r :=
    List.findSome?_eq_some_iff.mpr
      ⟨before, root, after, hs, hroot, fun r hm => inRoot?_eq_none_iff.mpr (hb r hm)⟩
  unfold inFiles
  rw [hfirst]
  exact (Form.given_of_found? hf).2

variable {leaf : Name} {packagePath : Option (List Path)}

namespace Form.Given

variable {r : Except ModuleError Found} {bytes : List UInt8}

end Form.Given

end Storage

end LivePatch
