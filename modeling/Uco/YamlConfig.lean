import Mathlib.Data.List.TakeWhile
import Uco.Bytes

/-! The YAML configuration reader: the scanner that knows quotes and escapes, the loader
line by line, and the lists that are split when they are read. -/
namespace Uco.YamlConfig

def dquote : UInt8 := 34
def squote : UInt8 := 39
def backslash : UInt8 := 92
def hash : UInt8 := 35
def colon : UInt8 := 58
def comma : UInt8 := 44
def dot : UInt8 := 46
def space : UInt8 := 32
def tab : UInt8 := 9
def lf : UInt8 := 10
def cr : UInt8 := 13
def opening : UInt8 := 91
def closing : UInt8 := 93

def isSpace (c : UInt8) : Bool := c = 32 ∨ (9 ≤ c ∧ c ≤ 13)

def trim (value : Bytes) : Bytes := ((value.dropWhile isSpace).reverse.dropWhile isSpace).reverse

/- FindUnquoted from here on; `quote` is the quote that is open, or 0. -/
def findFrom (target quote : UInt8) (escaped : Bool) : Bytes → Option ℕ
  | [] => none
  | ch :: rest =>
    if escaped then (findFrom target quote false rest).map (· + 1)
    else if quote = dquote ∧ ch = backslash then (findFrom target quote true rest).map (· + 1)
    else if ch = squote ∨ ch = dquote then
      (findFrom target (if quote = 0 then ch else if quote = ch then 0 else quote) false rest).map (· + 1)
    else if quote = 0 ∧ ch = target then some 0
    else (findFrom target quote false rest).map (· + 1)

def findUnquoted (value : Bytes) (target : UInt8) : Option ℕ := findFrom target 0 false value

def stripComment (line : Bytes) : Bytes :=
  trim (match findUnquoted line hash with
    | some pos => line.take pos
    | none => line)

def escapedByte (ch : UInt8) : UInt8 := if ch = 110 then lf else if ch = 114 then cr else if ch = 116 then tab else ch

def unescape (escaped : Bool) : Bytes → Option Bytes
  | [] => if escaped then none else some []
  | ch :: rest =>
    if escaped then (unescape false rest).map (escapedByte ch :: ·)
    else if ch = backslash then unescape true rest
    else (unescape false rest).map (ch :: ·)

def unquote (value : Bytes) : Option Bytes :=
  let value := trim value
  let between (quote : UInt8) : Bool := value.head? = some quote ∧ value.getLast? = some quote
  if value.length < 2 ∨ ¬between dquote ∧ ¬between squote then some value
  else if value.head? = some squote then some (value.drop 1).dropLast
  else unescape false (value.drop 1).dropLast

abbrev Values := List (Bytes × Bytes)

def find (values : Values) (key : Bytes) : Option Bytes := (values.find? (fun e => e.1 = key)).map Prod.snd

def emplace (values : Values) (key value : Bytes) : Option Values :=
  if (find values key).isSome then none else some (values ++ [(key,value)])

structure Loader where
  sections : List (ℕ × Bytes)
  values : Values
  deriving DecidableEq, Repr

def joinKey (full part : Bytes) : Bytes := (if full = [] then full else full ++ [dot]) ++ part

def fullKey (sections : List (ℕ × Bytes)) (key : Bytes) : Bytes :=
  joinKey (sections.reverse.foldl (fun full s => joinKey full s.2) []) key

def loadLine (loader : Loader) (line : Bytes) : Option Loader :=
  if tab ∈ line then none
  else
    let indent := (line.takeWhile (· = space)).length
    let content := stripComment (line.drop indent)
    if content = [] then some loader
    else
      match findUnquoted content colon with
      | none => none
      | some pos =>
        let key := trim (content.take pos)
        if key = [] then none
        else
          let sections := loader.sections.dropWhile (fun s => indent ≤ s.1)
          let rawValue := stripComment (content.drop (pos + 1))
          if rawValue = [] then some ⟨(indent,key) :: sections,loader.values⟩
          else do
            let value ← unquote rawValue
            let values ← emplace loader.values (fullKey sections key) value
            some ⟨sections,values⟩

def getlines : Bytes → List Bytes
  | [] => []
  | c :: rest =>
    if c = lf then [] :: getlines rest
    else match getlines rest with
      | [] => [[c]]
      | line :: lines => (c :: line) :: lines

def loadLines (loader : Loader) (lines : List Bytes) : Option Loader := lines.foldlM loadLine loader

def load (text : Bytes) : Bool × Values :=
  match loadLines ⟨[],[]⟩ (getlines text) with
  | some loader => (true,loader.values)
  | none => (false,[])

def contains (values : Values) (key : Bytes) : Bool := (find values key).isSome

def get (values : Values) (key default : Bytes) : Bytes := (find values key).getD default

def splitItems (value : Bytes) : Option (List Bytes) :=
  if trim value = [] then some []
  else
    match found : findUnquoted value comma with
    | none => (unquote value).map (fun parsed => [parsed])
    | some pos =>
      if trim (value.take pos) = [] then none
      else do
        let parsed ← unquote (value.take pos)
        let rest ← splitItems (value.drop (pos + 1))
        some (parsed :: rest)
termination_by value.length
decreasing_by
  cases value with
  | nil => simp [findUnquoted, findFrom] at found
  | cons c rest => simp only [List.length_drop, List.length_cons]; omega

def tryGetRawList (values : Values) (key : Bytes) : Option (List Bytes) := do
  let text ← find values key
  let value := trim text
  if value.length < 2 ∨ value.head? ≠ some opening ∨ value.getLast? ≠ some closing then none
  else splitItems (value.drop 1).dropLast

def getList (values : Values) (key : Bytes) : List Bytes := (tryGetRawList values key).getD []

section Scanning
variable {target : UInt8} {value rest : Bytes}

theorem trimTight (before value after : Bytes) (blank : ∀ c ∈ before, isSpace c) (blank' : ∀ c ∈ after, isSpace c)
    (head : ∀ c ∈ value.head?, isSpace c = false) (last : ∀ c ∈ value.getLast?, isSpace c = false) :
    trim (before ++ value ++ after) = value := by
  unfold trim
  rw [List.append_assoc, List.dropWhile_append_of_pos blank]
  cases value with
  | nil =>
    have none : after.dropWhile isSpace = [] := List.dropWhile_eq_nil_iff.mpr blank'
    simp [none]
  | cons a rest =>
    have first : isSpace a = false := head a rfl
    have blank'' : ∀ c ∈ after.reverse, isSpace c := fun c mem => blank' c (List.mem_reverse.mp mem)
    rw [List.cons_append, List.dropWhile_cons_of_neg (by simp [first]), ← List.cons_append, List.reverse_append,
      List.dropWhile_append_of_pos blank'']
    cases rev : (a :: rest).reverse with
    | nil => simp at rev
    | cons b front =>
      have ends : (a :: rest).getLast? = some b := by
        rw [← List.head?_reverse, rev]
        rfl
      rw [List.dropWhile_cons_of_neg (by simp [last b ends]), ← rev, List.reverse_reverse]

theorem trimBlank (blank : ∀ c ∈ value, isSpace c) : trim value = [] := by
  simpa using trimTight value [] [] blank (by simp) (by simp) (by simp)

def Clear (target : UInt8) (value : Bytes) : Prop :=
  ∀ rest, findFrom target 0 false (value ++ rest) = (findFrom target 0 false rest).map (· + value.length)

theorem clearNil : Clear target [] := by
  intro rest
  simp

theorem clearAppend {front back : Bytes} (first : Clear target front) (second : Clear target back) :
    Clear target (front ++ back) := by
  intro rest
  rw [List.append_assoc, first, second, Option.map_map]
  congr 1
  funext n
  simp only [Function.comp_apply, List.length_append]
  omega

theorem clearByte {c : UInt8} (single : c ≠ squote) (double : c ≠ dquote) (other : c ≠ target) : Clear target [c] := by
  intro rest
  have notDouble : (0 : UInt8) ≠ dquote := by decide
  simp [findFrom, single, double, other, notDouble]

theorem clearPlain (plain : ∀ c ∈ value, c ≠ squote ∧ c ≠ dquote ∧ c ≠ target) : Clear target value := by
  induction value with
  | nil => exact clearNil
  | cons c rest ih =>
    obtain ⟨single,double,other⟩ := plain c List.mem_cons_self
    exact clearAppend (clearByte single double other) (ih (fun d mem => plain d (List.mem_cons_of_mem c mem)))

theorem findHit (clear : Clear target value) (single : target ≠ squote) (double : target ≠ dquote) :
    findUnquoted (value ++ target :: rest) target = some value.length := by
  have notDouble : (0 : UInt8) ≠ dquote := by decide
  rw [findUnquoted, clear]
  simp [findFrom, single, double, notDouble]

theorem findNone (clear : Clear target value) : findUnquoted value target = none := by
  have whole := clear []
  rw [List.append_nil] at whole
  rw [findUnquoted, whole]
  rfl

end Scanning
end Uco.YamlConfig
