import Uco.ByteRange
import Mathlib.Logic.Function.Basic

/-! SelectResult::check_alignment and SelectResult::bind_row. A row comes from uselect, which
keeps a NULL as the empty string; the number conversions throw on that. -/
namespace Uco.RowBinding
open Resp RespGrammar ByteRange Sendfile

section Model

inductive EnumFieldTypes where
  | tiny | short | int24 | year | long | longlong | float | decimal | newdecimal | double | enum
  | varchar | varString | string | set | tinyBlob | mediumBlob | longBlob | blob | json
  | date | datetime | timestamp | time | bit | geometry
  | other (code : ℕ)
  deriving DecidableEq, Repr

inductive CppType where
  | int32 | int64 | uint32 | uint64 | float | double | bool | enum | string | message
  deriving DecidableEq, Repr

structure FieldDescriptor where
  name : Bytes
  cppType : CppType
  isRepeated : Bool
  enumValues : List (Bytes × Int)
  deriving DecidableEq, Repr

def findFieldByName (desc : List FieldDescriptor) (name : Bytes) : Option FieldDescriptor :=
  desc.find? (·.name = name)

structure Column where
  name : Bytes
  type : EnumFieldTypes
  flags : ℕ
  deriving DecidableEq, Repr

def Column.uns (column : Column) : Bool := column.flags.testBit 5

structure Stored where
  fields : List Column
  rows : List (List (Option Bytes))
  width : ∀ row ∈ rows, row.length = fields.length

structure SelectResult where
  columns : List Column
  rows : List (List Bytes)
  deriving DecidableEq, Repr

def rowData (row : List (Option Bytes)) : List Bytes := row.map (·.getD [])

def uselect (result : Stored) : SelectResult := ⟨result.fields,result.rows.map rowData⟩

def fieldAccepts (column : Column) (field : FieldDescriptor) : Bool :=
  let cpp := field.cppType
  match column.type with
  | .tiny | .short | .int24 | .year | .long =>
    if column.type = .tiny ∧ cpp = .bool then true
    else if column.uns then cpp = .uint32 ∨ cpp = .uint64
    else cpp = .int32 ∨ cpp = .int64
  | .longlong => if column.uns then cpp = .uint64 else cpp = .int64
  | .float => cpp = .float ∨ cpp = .double
  | .decimal | .newdecimal | .double => cpp = .double
  | .enum => cpp = .string ∨ cpp = .enum
  | .varchar | .varString | .string | .set | .tinyBlob | .mediumBlob | .longBlob | .blob | .json
  | .date | .datetime | .timestamp | .time | .bit | .geometry => cpp = .string
  | .other _ => false

def SelectResult.checkAlignment (s : SelectResult) (desc : List FieldDescriptor) : Bool :=
  s.columns.all fun column =>
    match findFieldByName desc column.name with
    | none => false
    | some field =>
      if field.isRepeated ∨ field.cppType = .message then false
      else fieldAccepts column field

inductive Value (F D : Type) where
  | int32 (v : Int)
  | int64 (v : Int)
  | uint32 (n : ℕ)
  | uint64 (n : ℕ)
  | float (x : F)
  | double (x : D)
  | bool (b : Bool)
  | enum (number : Int)
  | string (s : Bytes)
  deriving DecidableEq, Repr

abbrev Message (F D : Type) := Bytes → Option (Value F D)

def stoll (text : Bytes) : Option Int :=
  let text := text.dropWhile isSpace
  let negative := text.head? = some dash
  let digits := (if negative ∨ text.head? = some plusSign then text.tail else text).takeWhile isDigit
  let value : Int := if negative then -digitsFrom 0 digits else digitsFrom 0 digits
  if digits = [] ∨ value < -2^63 ∨ 2^63 ≤ value then none else some value

variable {F D : Type} (stof : Bytes → Option F) (stod : Bytes → Option D)

def setPbField (field : FieldDescriptor) (value : Bytes) : Option (Value F D) :=
  match field.cppType with
  | .int32 => (stoll value).map fun v => .int32 (Int.bmod v (2^32))
  | .int64 => (stoll value).map .int64
  | .uint32 => (stoull value).map fun n => .uint32 (n % 2^32)
  | .uint64 => (stoull value).map .uint64
  | .float => (stof value).map .float
  | .double => (stod value).map .double
  | .bool => some (.bool (value = bytes "1" ∨ value = bytes "true" ∨ value = bytes "t"))
  | .enum =>
    match field.enumValues.find? (·.1 = value) with
    | some ev => some (.enum ev.2)
    | none => do
      let v ← stoll value
      let ev ← field.enumValues.find? (·.2 = Int.bmod v (2^32))
      some (.enum ev.2)
  | .string => some (.string value)
  | .message => none

def bindCells (desc : List FieldDescriptor) : List Column → List Bytes → Message F D → Option (Bool × Message F D)
  | column :: columns,cell :: row,out =>
    match findFieldByName desc column.name with
    | none => none
    | some field =>
      match setPbField stof stod field cell with
      | none => some (false,out)
      | some value => bindCells desc columns row (Function.update out column.name (some value))
  | _,_,out => some (true,out)

def SelectResult.bindRow (s : SelectResult) (desc : List FieldDescriptor) (rowIdx : ℕ) (out : Message F D) :
    Option (Bool × Message F D) := do
  let row ← s.rows[rowIdx]?
  bindCells stof stod desc s.columns row out

end Model

section Meaning

inductive IntegerText : Int → Bytes → Prop where
  | natural {n digits} (decimal : Decimal digits n) : IntegerText n digits
  | negative {n digits} (below : 0 < n) (decimal : Decimal digits n) : IntegerText (-n) (dash :: digits)

def Column.range (column : Column) : Option (Int × Int) :=
  match column.type with
  | .tiny => some (if column.uns then (0,255) else (-128,127))
  | .short => some (if column.uns then (0,65535) else (-32768,32767))
  | .int24 => some (if column.uns then (0,16777215) else (-8388608,8388607))
  | .year => some (0,2155)
  | .long => some (if column.uns then (0,4294967295) else (-2147483648,2147483647))
  | .longlong => some (if column.uns then (0,18446744073709551615) else (-9223372036854775808,9223372036854775807))
  | _ => none

def Column.Legal (column : Column) (text : Bytes) : Prop :=
  ∀ least greatest, column.range = some (least,greatest) →
    ∃ v, IntegerText v text ∧ least ≤ v ∧ v ≤ greatest

def CppType.integer (cpp : CppType) : Bool := cpp = .int32 ∨ cpp = .int64 ∨ cpp = .uint32 ∨ cpp = .uint64

def Value.integer {F D : Type} : Value F D → Option Int
  | .int32 v | .int64 v => some v
  | .uint32 n | .uint64 n => some n
  | _ => none

def CppType.Fits (v : Int) : CppType → Prop
  | .int32 => -2^31 ≤ v ∧ v < 2^31
  | .int64 => -2^63 ≤ v ∧ v < 2^63
  | .uint32 => 0 ≤ v ∧ v < 2^32
  | .uint64 => 0 ≤ v ∧ v < 2^64
  | _ => True

def InScope (desc : List FieldDescriptor) (column : Column) : Prop :=
  column.range.isSome ∨ ∃ field, findFieldByName desc column.name = some field ∧ field.cppType = .string

def cellOf (cells : List (Column × Option Bytes)) (name : Bytes) : Option (Column × Option Bytes) :=
  cells.findRev? (·.1.name = name)

structure Bound {F D : Type} (desc : List FieldDescriptor) (cells : List (Column × Option Bytes))
    (out after : Message F D) : Prop where
  integers : ∀ field column text v, cellOf cells field.name = some (column,some text) →
    findFieldByName desc field.name = some field → field.cppType.integer → IntegerText v text →
    (after field.name).bind Value.integer = some v
  strings : ∀ field column cell, cellOf cells field.name = some (column,cell) →
    findFieldByName desc field.name = some field → field.cppType = .string →
    after field.name = some (.string (cell.getD []))
  others : ∀ name, cellOf cells name = none → after name = out name

end Meaning

section Numbers

theorem stollText {v : Int} {text : Bytes} (written : IntegerText v text) (low : -2^63 ≤ v) (high : v < 2^63) :
    stoll text = some v := by
  cases written with
  | @natural n _ decimal =>
    obtain ⟨c,rest,rfl,digit,notSpace,notDash,notPlus⟩ := decimalFirst decimal
    have taken : (c :: rest).takeWhile isDigit = c :: rest :=
      List.takeWhile_eq_self_iff.mpr (List.all_eq_true.mp decimal.digits)
    have front : (c :: rest).dropWhile isSpace = c :: rest := by simp [notSpace]
    have unsigned : ¬(some c = some dash ∨ some c = some plusSign) := by simp [notDash, notPlus]
    have positive : ¬some c = some dash := by simp [notDash]
    simp only [stoll, front, List.head?_cons, if_neg unsigned, taken, if_neg positive, decimal.value]
    rw [if_neg]
    simp only [reduceCtorEq, false_or]
    omega
  | @negative n digits below decimal =>
    have taken : digits.takeWhile isDigit = digits :=
      List.takeWhile_eq_self_iff.mpr (List.all_eq_true.mp decimal.digits)
    have front : (dash :: digits).dropWhile isSpace = dash :: digits := by simp [isSpace, dash]
    simp only [stoll, front, List.head?_cons, true_or, if_true, List.tail_cons, taken, decimal.value]
    rw [if_neg]
    simp only [decimal.some, false_or]
    omega

theorem stoullText {v : Int} {text : Bytes} (written : IntegerText v text) (low : 0 ≤ v) (high : v < 2^64) :
    ∃ n : ℕ, stoull text = some n ∧ (n : Int) = v := by
  cases written with
  | natural decimal => exact ⟨_,stoullDecimal decimal,rfl⟩
  | negative below decimal => omega

theorem textUnique {v w : Int} {text : Bytes} (first : IntegerText v text) (second : IntegerText w text) : v = w := by
  cases first with
  | natural decimal =>
    cases second with
    | natural other => rw [← decimal.value, other.value]
    | negative below other => exact absurd rfl (noDash decimal.digits dash List.mem_cons_self)
  | negative below decimal =>
    cases second with
    | natural other => exact absurd rfl (noDash other.digits dash List.mem_cons_self)
    | negative below' other => rw [← decimal.value, other.value]

end Numbers

section Cells
variable {F D : Type} {stof : Bytes → Option F} {stod : Bytes → Option D} {column : Column} {field : FieldDescriptor}
  {text : Bytes} {v : Int}

theorem acceptsRange (accepts : fieldAccepts column field) (integer : field.cppType.integer) :
    ∃ least greatest, column.range = some (least,greatest) := by
  simp only [CppType.integer, decide_eq_true_eq] at integer
  rcases integer with cpp | cpp | cpp | cpp
  all_goals
    cases type : column.type <;> simp [fieldAccepts, type, cpp] at accepts
    all_goals exact ⟨_,_,by rw [Column.range, type]⟩

theorem acceptsFits (accepts : fieldAccepts column field) (integer : field.cppType.integer) {least greatest : Int}
    (range : column.range = some (least,greatest)) (low : least ≤ v) (high : v ≤ greatest) : field.cppType.Fits v := by
  simp only [CppType.integer, decide_eq_true_eq] at integer
  rcases integer with cpp | cpp | cpp | cpp
  all_goals
    simp only [cpp, CppType.Fits]
    cases type : column.type <;> cases unsigned : column.uns <;>
      simp [Column.range, fieldAccepts, type, unsigned, cpp] at range accepts <;> omega

theorem setFits (integer : field.cppType.integer) (fits : field.cppType.Fits v) (written : IntegerText v text) :
    ∃ value, setPbField stof stod field text = some value ∧ value.integer = some v := by
  simp only [CppType.integer, decide_eq_true_eq] at integer
  simp only [setPbField]
  rcases integer with cpp | cpp | cpp | cpp <;> simp only [cpp, CppType.Fits] at fits ⊢
  · rw [stollText written (by omega) (by omega)]
    refine ⟨_,rfl,?_⟩
    have same : Int.bmod v (2^32) = v := by
      rw [Int.bmod_def]
      split <;> omega
    rw [Value.integer, same]
  · rw [stollText written fits.1 fits.2]
    exact ⟨_,rfl,rfl⟩
  · obtain ⟨n,read,same⟩ := stoullText written fits.1 (by omega)
    rw [read]
    refine ⟨_,rfl,?_⟩
    rw [Value.integer, Nat.mod_eq_of_lt (by omega), same]
  · obtain ⟨n,read,same⟩ := stoullText written fits.1 fits.2
    rw [read]
    refine ⟨_,rfl,?_⟩
    rw [Value.integer, same]

theorem setEmpty (integer : field.cppType.integer) : setPbField stof stod field [] = none := by
  simp only [CppType.integer, decide_eq_true_eq] at integer
  simp only [setPbField]
  rcases integer with cpp | cpp | cpp | cpp <;> simp only [cpp] <;> rfl

theorem acceptsBool (accepts : fieldAccepts column field) (ranged : column.range.isSome)
    (other : ¬field.cppType.integer) : field.cppType = .bool := by
  simp only [CppType.integer, decide_eq_true_eq, not_or] at other
  obtain ⟨int32,int64,uint32,uint64⟩ := other
  simp only [fieldAccepts] at accepts
  simp only [Column.range] at ranged
  cases type : column.type <;> cases unsigned : column.uns <;> simp_all

theorem cellSets {cell : Option Bytes} (accepts : fieldAccepts column field)
    (scope : column.range.isSome ∨ field.cppType = .string) (legal : ∀ text, cell = some text → column.Legal text) :
    (∃ value, setPbField stof stod field (cell.getD []) = some value) ↔ (cell = none → ¬field.cppType.integer) := by
  by_cases integer : field.cppType.integer
  · cases cell with
    | none =>
      rw [Option.getD_none, setEmpty integer]
      exact iff_of_false nofun fun bare => bare rfl integer
    | some text =>
      obtain ⟨least,greatest,range⟩ := acceptsRange accepts integer
      obtain ⟨v,written,low,high⟩ := legal text rfl least greatest range
      have fits := acceptsFits accepts integer range low high
      obtain ⟨value,set',-⟩ := @setFits F D stof stod _ _ _ integer fits written
      exact iff_of_true ⟨value,set'⟩ nofun
  · refine iff_of_true ?_ fun _ => integer
    rcases scope with ranged | text
    · have bool := acceptsBool accepts ranged integer
      simp only [setPbField, bool]
      exact ⟨_,rfl⟩
    · simp only [setPbField, text]
      exact ⟨_,rfl⟩

end Cells

section Rows
variable {F D : Type} {stof : Bytes → Option F} {stod : Bytes → Option D} {desc : List FieldDescriptor}
  {columns : List Column} {row : List (Option Bytes)} {out after : Message F D}

def Sets (stof : Bytes → Option F) (stod : Bytes → Option D) (desc : List FieldDescriptor)
    (p : Column × Option Bytes) : Prop :=
  ∃ field, findFieldByName desc p.1.name = some field ∧ ∃ value, setPbField stof stod field (p.2.getD []) = some value

theorem cellCons (p : Column × Option Bytes) (cells : List (Column × Option Bytes)) (name : Bytes) :
    cellOf (p :: cells) name = (cellOf cells name).or (if p.1.name = name then some p else none) := by
  simp only [cellOf, List.findRev?]
  cases cells.findRev? fun p => decide (p.1.name = name) with
  | some q => rfl
  | none => simp [Option.or]

theorem bindOnly (width : row.length = columns.length)
    (bound : bindCells stof stod desc columns (rowData row) out = some (true,after)) :
    ∀ p ∈ columns.zip row, Sets stof stod desc p := by
  induction columns generalizing row out with
  | nil => simp
  | cons column columns ih =>
    cases row with
    | nil => simp
    | cons cell row =>
      rw [rowData, List.map_cons, bindCells, ← rowData] at bound
      cases found : findFieldByName desc column.name with
      | none => simp [found] at bound
      | some field =>
        cases set' : setPbField stof stod field (cell.getD []) with
        | none => simp [found, set'] at bound
        | some value =>
          simp only [found, set'] at bound
          rw [List.zip_cons_cons]
          exact List.forall_mem_cons.mpr ⟨⟨field,found,value,set'⟩,ih (by simpa using width) bound⟩

theorem bindAll (sets : ∀ p ∈ columns.zip row, Sets stof stod desc p) (width : row.length = columns.length) :
    ∃ after, bindCells stof stod desc columns (rowData row) out = some (true,after) ∧
      (∀ name, cellOf (columns.zip row) name = none → after name = out name) ∧
      ∀ name column cell field, cellOf (columns.zip row) name = some (column,cell) →
        findFieldByName desc name = some field → after name = setPbField stof stod field (cell.getD []) := by
  induction columns generalizing row out with
  | nil => exact ⟨out,by rw [bindCells]; nofun,fun _ _ => rfl,fun name column cell field found => absurd found nofun⟩
  | cons column columns ih =>
    cases row with
    | nil => exact absurd width nofun
    | cons cell row =>
      rw [List.zip_cons_cons] at sets
      obtain ⟨⟨field,found,value,set'⟩,rest⟩ := List.forall_mem_cons.mp sets
      obtain ⟨after,bound,others,last⟩ :=
        @ih row (Function.update out column.name (some value)) rest (by simpa using width)
      refine ⟨after,?_,fun name unnamed => ?_,fun name column' cell' field' named found' => ?_⟩
      · rw [rowData, List.map_cons, bindCells, ← rowData]
        simp only [found, set', bound]
      · rw [List.zip_cons_cons, cellCons, Option.or_eq_none_iff] at unnamed
        have other : name ≠ column.name := fun same => by simp [same] at unnamed
        rw [others name unnamed.1, Function.update_of_ne other]
      · rw [List.zip_cons_cons, cellCons] at named
        cases behind : cellOf (columns.zip row) name with
        | some q =>
          rw [behind, Option.some_or] at named
          exact last name column' cell' field' (behind.trans named) found'
        | none =>
          rw [behind, Option.none_or] at named
          split at named
          · rename_i same
            cases named
            subst same
            cases found.symm.trans found'
            rw [others _ behind, Function.update_self, set']
          · cases named

theorem cellMember {cells : List (Column × Option Bytes)} {name : Bytes} {p : Column × Option Bytes}
    (found : cellOf cells name = some p) : p ∈ cells ∧ p.1.name = name := by
  induction cells with
  | nil => cases found
  | cons q cells ih =>
    rw [cellCons] at found
    cases behind : cellOf cells name with
    | some r =>
      rw [behind, Option.some_or] at found
      obtain ⟨mem,same⟩ := ih (behind.trans found)
      exact ⟨List.mem_cons_of_mem _ mem,same⟩
    | none =>
      rw [behind, Option.none_or] at found
      split at found
      · rename_i same
        cases found
        exact ⟨List.mem_cons_self,same⟩
      · cases found

theorem alignedAccepts {s : SelectResult} (aligned : s.checkAlignment desc) (column : Column)
    (mem : column ∈ s.columns) : ∃ field, findFieldByName desc column.name = some field ∧ fieldAccepts column field := by
  have each := List.all_eq_true.mp aligned column mem
  cases found : findFieldByName desc column.name with
  | none => simp [found] at each
  | some field =>
    simp only [found] at each
    split at each
    · cases each
    · exact ⟨field,rfl,each⟩

/- A row is bound exactly where no NULL comes to an integer field. -/
theorem bindsIff {result : Stored} {rowIdx : ℕ} (aligned : (uselect result).checkAlignment desc)
    (scope : ∀ column ∈ result.fields, InScope desc column) (here : result.rows[rowIdx]? = some row)
    (legal : ∀ column text, (column,some text) ∈ result.fields.zip row → column.Legal text) :
    (∃ after, (uselect result).bindRow stof stod desc rowIdx out = some (true,after) ∧
      Bound desc (result.fields.zip row) out after) ↔
    ∀ column field, (column,none) ∈ result.fields.zip row → findFieldByName desc column.name = some field →
      ¬field.cppType.integer := by
  have width := result.width row (List.mem_of_getElem? here)
  have bindEq : (uselect result).bindRow stof stod desc rowIdx out =
      bindCells stof stod desc result.fields (rowData row) out := by
    simp [SelectResult.bindRow, uselect, here]
  have cell : ∀ p ∈ result.fields.zip row, ∀ field, findFieldByName desc p.1.name = some field →
      fieldAccepts p.1 field ∧ ((∃ value, setPbField stof stod field (p.2.getD []) = some value) ↔
        (p.2 = none → ¬field.cppType.integer)) := by
    rintro ⟨column,cell⟩ mem field found
    have member := (List.of_mem_zip mem).1
    obtain ⟨field',found',accepts⟩ := alignedAccepts aligned column member
    cases found.symm.trans found'
    refine ⟨accepts,cellSets accepts ?_ ?_⟩
    · rcases scope column member with ranged | ⟨field',found',text⟩
      · exact .inl ranged
      · cases found.symm.trans found'
        exact .inr text
    · rintro text rfl
      exact legal column text mem
  rw [bindEq]
  constructor
  · rintro ⟨after,bound,-⟩ column field mem found
    obtain ⟨field',found',value⟩ := bindOnly width bound _ mem
    cases found.symm.trans found'
    exact (cell _ mem field found).2.mp value rfl
  · intro whole
    have sets : ∀ p ∈ result.fields.zip row, Sets stof stod desc p := by
      rintro ⟨column,value⟩ mem
      obtain ⟨field,found,-⟩ := alignedAccepts aligned column (List.of_mem_zip mem).1
      exact ⟨field,found,(cell _ mem field found).2.mpr fun bare => whole column field (bare ▸ mem) found⟩
    obtain ⟨after,bound,others,last⟩ := @bindAll F D stof stod desc _ _ out sets width
    refine ⟨after,bound,⟨fun field column text v named found integer written => ?_,
      fun field column value named found text => ?_,others⟩⟩
    · obtain ⟨mem,same⟩ := cellMember named
      rw [last _ _ _ _ named found, Option.getD_some]
      have foundColumn : findFieldByName desc column.name = some field := by rw [← found, ← same]
      have accepts := (cell _ mem field foundColumn).1
      obtain ⟨least,greatest,range⟩ := acceptsRange accepts integer
      obtain ⟨w,written',low,high⟩ := legal column text mem least greatest range
      obtain rfl := textUnique written written'
      have fits := acceptsFits accepts integer range low high
      obtain ⟨value,set',holds⟩ := @setFits F D stof stod _ _ _ integer fits written
      rw [set', Option.bind_some, holds]
    · rw [last _ _ _ _ named found]
      simp only [setPbField, text]

def people : List FieldDescriptor := [⟨[110],.int32,false,[]⟩,⟨[115],.string,false,[]⟩]

def peopleStored (row : List (Option Bytes)) (two : row.length = 2) : Stored where
  fields := [⟨[110],.long,0⟩,⟨[115],.varString,0⟩]
  rows := [row]
  width := List.forall_mem_singleton.mpr two

theorem peopleScope (row : List (Option Bytes)) (two : row.length = 2) :
    ∀ column ∈ (peopleStored row two).fields, InScope people column :=
  List.forall_mem_cons.mpr ⟨.inl rfl,List.forall_mem_singleton.mpr (.inr ⟨_,rfl,rfl⟩)⟩

theorem nullText : ∃ after : Message Unit Unit,
    (uselect (peopleStored [some [45,55],none] rfl)).bindRow (fun _ => none) (fun _ => none) people 0 (fun _ => none) =
      some (true,after) ∧
    Bound people ((peopleStored [some [45,55],none] rfl).fields.zip [some [45,55],none]) (fun _ => none) after := by
  refine (bindsIff rfl (peopleScope _ rfl) rfl fun column text mem => ?_).mpr fun column field mem found => ?_
  · obtain ⟨rfl,rfl⟩ : column = ⟨[110],.long,0⟩ ∧ text = [45,55] := by
      simpa [peopleStored] using mem
    rintro least greatest range
    cases range
    exact ⟨-7,.negative (by decide) ⟨by decide,by decide,by decide,by decide⟩,by decide,by decide⟩
  · obtain rfl : column = ⟨[115],.varString,0⟩ := by
      simpa [peopleStored] using mem
    cases found
    decide

theorem nullInteger :
    (uselect (peopleStored [none,none] rfl)).checkAlignment people ∧
    (∀ column ∈ (peopleStored [none,none] rfl).fields, InScope people column) ∧
    (∀ column text, (column,some text) ∈ (peopleStored [none,none] rfl).fields.zip [none,none] → column.Legal text) ∧
    ¬∃ after : Message Unit Unit,
      (uselect (peopleStored [none,none] rfl)).bindRow (fun _ => none) (fun _ => none) people 0 (fun _ => none) =
        some (true,after) := by
  refine ⟨rfl,peopleScope _ rfl,fun column text mem => ?_,?_⟩
  · simp [peopleStored] at mem
  · rintro ⟨after,bound⟩
    have refused : ((uselect (peopleStored [none,none] rfl)).bindRow (fun _ => (none : Option Unit))
        (fun _ => (none : Option Unit)) people 0 (fun _ => none)).map Prod.fst = some false := by decide
    rw [bound] at refused
    cases refused

end Rows

end Uco.RowBinding
