/-
  The end of `Parser.hs`: what `parseProgram` does with the declarations of a text.

  The grammar itself is a parameter, `parse`: the declarations of a text, or a message.
-/
import KeyboardFirmware.Compiler.TypedAST

namespace KeyboardFirmware.Compiler

/-- `isMain`. -/
def isMain : Declaration → Bool
  | .methodDeclaration _ n _ _ => n == "main"
  | .globalVariableDeclaration _ _ => false

/-- `mainFirst`. -/
def mainFirst (a b : Declaration) : Ordering :=
  if isMain a then .lt else if isMain b then .gt else .eq

/-- `sortBy mainFirst`, a stable sort; it asks only which of two is the greater. -/
def sortMainFirst (decs : List Declaration) : List Declaration :=
  decs.mergeSort fun a b => mainFirst a b != .gt

/-- `convertError`. -/
def convertError {α : Type} : Except String α → ThrowsError α
  | .error message => .error (.parsingError message)
  | .ok x => .ok x

/-- `parseProgram`. -/
def parseProgram (parse : String → Except String (List Declaration)) (p : String) :
    ThrowsError (List Declaration) := do
  let decs ← convertError (parse p)
  match sortMainFirst decs with
  | [] => .error (.exception "Prelude.head: empty list")
  | d :: sdecs => if isMain d then .ok (d :: sdecs) else .error .noMainError

variable {decs sdecs : List Declaration}

theorem mainFirst_ne_gt (a b : Declaration) :
    (mainFirst a b != .gt) = (isMain a || !isMain b) := by
  unfold mainFirst
  cases isMain a <;> cases isMain b <;> rfl

/-- A `main` that is there comes first. -/
theorem sortMainFirst_head {d : Declaration} (h : sortMainFirst decs = d :: sdecs)
    (hmain : ∃ m ∈ decs, isMain m = true) : isMain d = true := by
  have hsorted : (sortMainFirst decs).Pairwise fun a b => (mainFirst a b != .gt) = true := by
    refine List.pairwise_mergeSort (fun a b c => ?_) (fun a b => ?_) decs
    · simp only [mainFirst_ne_gt]
      cases isMain a <;> cases isMain b <;> cases isMain c <;> decide
    · simp only [mainFirst_ne_gt]
      cases isMain a <;> cases isMain b <;> decide
  obtain ⟨m, hm, hm'⟩ := hmain
  have hmem : m ∈ d :: sdecs := h ▸ (List.mergeSort_perm decs _).mem_iff.mpr hm
  rcases List.mem_cons.mp hmem with rfl | hmem
  · exact hm'
  · rw [h] at hsorted
    have hle := (List.pairwise_cons.mp hsorted).1 m hmem
    rw [mainFirst_ne_gt, hm'] at hle
    simpa using hle

theorem parseProgram_sorted {parse : String → Except String (List Declaration)} {p : String}
    {d : Declaration} (hparse : parse p = .ok decs) (hsort : sortMainFirst decs = d :: sdecs)
    (hmain : isMain d = true) : parseProgram parse p = .ok (d :: sdecs) := by
  rw [parseProgram, hparse]
  simp only [convertError, bind, Except.bind, hsort, hmain, if_true]

/-- What `parseProgram` returns starts with `main`. -/
theorem parseProgram_ok {parse : String → Except String (List Declaration)} {p : String}
    (h : parseProgram parse p = .ok sdecs) :
    ∃ typ args body rest, sdecs = .methodDeclaration typ "main" args body :: rest := by
  obtain ⟨decs, -, h⟩ := bind_eq_ok.mp h
  split at h
  · exact (nomatch h)
  · split at h
    · next d rest _ hmain =>
      obtain rfl := Except.ok.inj h
      cases d with
      | methodDeclaration typ nam args body =>
        obtain rfl : nam = "main" := by simpa [isMain] using hmain
        exact ⟨typ, args, body, rest, rfl⟩
      | globalVariableDeclaration typ nam => exact (nomatch hmain)
    · exact (nomatch h)

end KeyboardFirmware.Compiler
