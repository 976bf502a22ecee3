import Uco.Bytes
import Mathlib.Data.List.Infix

/-! POSIX paths as byte strings: segments, lexical normal form, the append of
std::filesystem, and the byte string that open sees. A path is read as a walk in
a tree of directories, so the first section is about walks over any names. -/
namespace Uco.FilePath

section Walk
variable {Name : Type}

inductive Move (Name : Type) where
  | stay
  | up
  | into (name : Name)
  deriving DecidableEq, Repr

def Move.apply (place : List Name) : Move Name → List Name
  | .stay => place
  | .up => place.dropLast
  | .into name => place ++ [name]

def walk (start : List Name) (moves : List (Move Name)) : List Name :=
  moves.foldl Move.apply start

@[simp] theorem walkNil (start : List Name) : walk start [] = start := rfl

@[simp] theorem walkCons (start : List Name) (move : Move Name) (moves : List (Move Name)) :
    walk start (move :: moves) = walk (move.apply start) moves := rfl

theorem walkAppend (start : List Name) (first second : List (Move Name)) :
    walk start (first ++ second) = walk (walk start first) second :=
  List.foldl_append

theorem walkDown (start : List Name) (moves : List (Move Name))
    (down : ∀ m ∈ moves, ∃ name, m = .into name) : start <+: walk start moves := by
  induction moves generalizing start with
  | nil => exact List.prefix_refl start
  | cons m rest ih =>
    obtain ⟨name, rfl⟩ := down m (by simp)
    have below := ih (start ++ [name]) (fun x hx => down x (by simp [hx]))
    exact (List.prefix_append start [name]).trans below

end Walk

def slash : UInt8 := 47
def dot : UInt8 := 46

section Segments

/- Maximal runs without a slash, in order; `current` is the run being read. -/
@[simp] def segmentsFrom (current : Bytes) : Bytes → List Bytes
  | [] => if current = [] then [] else [current]
  | c :: rest =>
    if c = slash then
      if current = [] then segmentsFrom [] rest else current :: segmentsFrom [] rest
    else segmentsFrom (current ++ [c]) rest

def segments (path : Bytes) : List Bytes := segmentsFrom [] path

@[simp] theorem segmentsNil : segments [] = [] := rfl

@[simp] theorem segmentsSlash (rest : Bytes) : segments (slash :: rest) = segments rest := by
  simp [segments]

theorem segmentsFromRun (current run rest : Bytes) (plain : slash ∉ run) :
    segmentsFrom current (run ++ rest) = segmentsFrom (current ++ run) rest := by
  induction run generalizing current with
  | nil => simp
  | cons c run ih =>
    simp only [List.mem_cons, not_or] at plain
    rw [List.cons_append, segmentsFrom, if_neg (Ne.symm plain.1), ih _ plain.2]
    simp

theorem segmentsFromJoin (current left right : Bytes) :
    segmentsFrom current (left ++ slash :: right) = segmentsFrom current left ++ segments right := by
  induction left generalizing current with
  | nil =>
    by_cases empty : current = [] <;> simp [segments, empty]
  | cons c left ih =>
    by_cases isSlash : c = slash
    · by_cases empty : current = [] <;> simp [isSlash, empty, ih]
    · simp [isSlash, ih]

theorem segmentsJoin (left right : Bytes) :
    segments (left ++ slash :: right) = segments left ++ segments right :=
  segmentsFromJoin [] left right

theorem segmentsRun (run rest : Bytes) (some : run ≠ []) (plain : slash ∉ run)
    (stop : rest = [] ∨ ∃ tail, rest = slash :: tail) :
    segments (run ++ rest) = run :: segments rest := by
  rw [segments, segmentsFromRun [] run rest plain, List.nil_append]
  rcases stop with rfl | ⟨tail, rfl⟩
  · simp [some]
  · simp [some, segments]

end Segments

def moveOf (segment : Bytes) : Move Bytes :=
  if segment = [dot] then .stay
  else if segment = [dot, dot] then .up
  else .into segment

def moves (path : Bytes) : List (Move Bytes) := (segments path).map moveOf

/- std::filesystem::path::is_absolute; on POSIX, has_root_directory. -/
def isAbsolute (path : Bytes) : Prop := path.head? = some slash
instance (path : Bytes) : Decidable (isAbsolute path) := by unfold isAbsolute; infer_instance

def hasFilename (path : Bytes) : Prop := path ≠ [] ∧ path.getLast? ≠ some slash
instance (path : Bytes) : Decidable (hasFilename path) := by unfold hasFilename; infer_instance

def append (left right : Bytes) : Bytes :=
  if isAbsolute right ∨ left = [] then right
  else if hasFilename left then left ++ slash :: right
  else left ++ right

def normal (path : Bytes) : List Bytes := walk [] (moves path)

def Under (dir path : Bytes) : Prop := isAbsolute path ∧ normal dir <+: normal path
instance (dir path : Bytes) : Decidable (Under dir path) := by unfold Under; infer_instance

theorem appendAbsolute {left right : Bytes} (abs : isAbsolute right) : append left right = right := by
  simp [append, abs]

theorem movesJoin (left right : Bytes) : moves (left ++ slash :: right) = moves left ++ moves right := by
  simp [moves, segmentsJoin]

theorem movesAppend {left right : Bytes} (abs : isAbsolute left) (rel : ¬ isAbsolute right) :
    moves (append left right) = moves left ++ moves right := by
  have someLeft : left ≠ [] := by rintro rfl; simp [isAbsolute] at abs
  by_cases file : hasFilename left
  · simp [append, rel, someLeft, file, movesJoin]
  · have last : left.getLast? = some slash := by
      by_contra other
      exact file ⟨someLeft, other⟩
    obtain ⟨front, rfl⟩ := List.getLast?_eq_some_iff.mp last
    have whole : moves (front ++ [slash]) = moves front := by
      rw [movesJoin]; simp [moves]
    simp only [append, rel, someLeft, file, or_self, if_false, List.append_assoc, List.singleton_append]
    rw [movesJoin, whole]

theorem normalAppend {left right : Bytes} (abs : isAbsolute left) (rel : ¬ isAbsolute right) :
    normal (append left right) = walk (normal left) (moves right) := by
  rw [normal, movesAppend abs rel, walkAppend, normal]

theorem absoluteAppend {left right : Bytes} (abs : isAbsolute left) : isAbsolute (append left right) := by
  have someLeft : left ≠ [] := by rintro rfl; simp [isAbsolute] at abs
  obtain ⟨c, rest, rfl⟩ := List.exists_cons_of_ne_nil someLeft
  have first : c = slash := by simpa [isAbsolute] using abs
  by_cases right' : isAbsolute right
  · rwa [appendAbsolute right']
  · rw [append, if_neg (by simp [right'])]
    split <;> simpa [isAbsolute] using first

theorem cStringAbsolute (path : Bytes) : isAbsolute (cString path) ↔ isAbsolute path := by
  cases path with
  | nil => simp [cString]
  | cons c rest =>
    by_cases zero : c = 0
    · subst zero; simp [cString, isAbsolute, slash]
    · simp [cString, isAbsolute, zero]

theorem cStringAppend {left : Bytes} (noNul : (0 : UInt8) ∉ left) (right : Bytes) :
    cString (append left right) = append left (cString right) := by
  unfold append
  simp only [cStringAbsolute]
  split
  · rfl
  · split
    · rw [cStringPrefix noNul, cString, List.takeWhile_cons_of_pos (by decide)]; rfl
    · exact cStringPrefix noNul right

end Uco.FilePath
