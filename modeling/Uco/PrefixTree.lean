import Uco.FilePath
import Mathlib.Logic.Function.Basic
import Mathlib.Data.Option.Basic

/-! The router's prefix tree: registration of a pattern and the backtracking
search, as the server computes them. A node owns its children, so the pointers
of the source are values here; `HandleFunc` stays a parameter. -/
namespace Uco.PrefixTree
open FilePath

def splitPath (path : Bytes) : List Bytes := segments path

def colon : UInt8 := 58
def asterisk : UInt8 := 42

abbrev Params := Bytes → Option Bytes

structure RouteMatch (HandleFunc : Type) where
  handles : List HandleFunc
  params : Params
  pattern : Bytes

structure TrieNode (HandleFunc : Type) where
  children : Bytes → Option (TrieNode HandleFunc)
  paramChild : Option (TrieNode HandleFunc)
  paramName : Bytes
  wildcardChild : Option (TrieNode HandleFunc)
  wildcardName : Bytes
  handles : List HandleFunc
  routePattern : Bytes
  isEnd : Bool

variable {HandleFunc : Type}

def TrieNode.new : TrieNode HandleFunc := ⟨fun _ => none, none, [], none, [], [], [], false⟩

def finish (handles : List HandleFunc) (pattern : Bytes) (cur : TrieNode HandleFunc) : TrieNode HandleFunc :=
  {cur with
    isEnd := true
    routePattern := if pattern = [] then bytes "/" else pattern
    handles := cur.handles ++ handles}

/- A parameter or wildcard child is created once; later patterns share it
under the name it got then, and nothing after a wildcard is read. -/
def insertAt (handles : List HandleFunc) : List Bytes → Bytes → TrieNode HandleFunc → TrieNode HandleFunc
  | [], pattern, cur => finish handles pattern cur
  | segment :: parts, pattern, cur =>
    if segment.head? = some colon then
      let child := cur.paramChild.getD {TrieNode.new with paramName := segment.drop 1}
      let grown := insertAt handles parts (pattern ++ bytes "/:" ++ child.paramName) child
      {cur with paramChild := some grown}
    else if segment.head? = some asterisk then
      let child := cur.wildcardChild.getD {TrieNode.new with wildcardName := segment.drop 1}
      let grown := finish handles (pattern ++ bytes "/*" ++ child.wildcardName) child
      {cur with wildcardChild := some grown}
    else
      let child := (cur.children segment).getD TrieNode.new
      let grown := insertAt handles parts (pattern ++ bytes "/" ++ segment) child
      {cur with children := Function.update cur.children segment (some grown)}

def insert (root : TrieNode HandleFunc) (path : Bytes) (handles : List HandleFunc) : TrieNode HandleFunc :=
  insertAt handles (splitPath path) [] root

def build (routes : List (Bytes × List HandleFunc)) : TrieNode HandleFunc :=
  routes.foldl (fun root route => insert root route.1 route.2) TrieNode.new

def setParam (params : Params) (name value : Bytes) : Params := Function.update params name (some value)
def eraseParam (params : Params) (name : Bytes) : Params := Function.update params name none

def joinRest (parts : List Bytes) : Bytes := List.intercalate [slash] parts

def takeWildcard (rest : Bytes) (wild : TrieNode HandleFunc) (result : RouteMatch HandleFunc) :
    RouteMatch HandleFunc :=
  ⟨wild.handles, setParam result.params wild.wildcardName rest, wild.routePattern⟩

section Branches
variable (below : TrieNode HandleFunc → RouteMatch HandleFunc → Bool × RouteMatch HandleFunc)

def tryLiteral (segment : Bytes) (node : TrieNode HandleFunc) (result : RouteMatch HandleFunc) :
    Bool × RouteMatch HandleFunc :=
  match node.children segment with
  | some child => below child result
  | none => (false, result)

def tryParam (segment : Bytes) (node : TrieNode HandleFunc) (result : RouteMatch HandleFunc) :
    Bool × RouteMatch HandleFunc :=
  match node.paramChild with
  | some child =>
    let inner := below child {result with params := setParam result.params child.paramName segment}
    if inner.1 then inner
    else (false, {inner.2 with params := eraseParam inner.2.params child.paramName})
  | none => (false, result)

end Branches

def tryWildcard (rest : Bytes) (node : TrieNode HandleFunc) (result : RouteMatch HandleFunc) :
    Bool × RouteMatch HandleFunc :=
  match node.wildcardChild with
  | some wild => if wild.isEnd then (true, takeWildcard rest wild result) else (false, result)
  | none => (false, result)

def dfsMatch : List Bytes → TrieNode HandleFunc → RouteMatch HandleFunc → Bool × RouteMatch HandleFunc
  | [], node, result =>
    if node.isEnd then (true, {result with handles := node.handles, pattern := node.routePattern})
    else tryWildcard [] node result
  | segment :: parts, node, result =>
    let literal := tryLiteral (dfsMatch parts) segment node result
    if literal.1 then literal
    else
      let param := tryParam (dfsMatch parts) segment node literal.2
      if param.1 then param else tryWildcard (joinRest (segment :: parts)) node param.2

def RouteMatch.empty : RouteMatch HandleFunc := ⟨[], fun _ => none, []⟩

def matchRoute (root : TrieNode HandleFunc) (path : Bytes) : Bool × RouteMatch HandleFunc :=
  dfsMatch (splitPath path) root RouteMatch.empty

section Registration

/- One segment of a pattern, parameter and wildcard names left out. -/
inductive Elem where
  | literal (segment : Bytes)
  | parameter
  | wildcard
  deriving DecidableEq, Repr

def elemOf (segment : Bytes) : Elem :=
  if segment.head? = some colon then .parameter
  else if segment.head? = some asterisk then .wildcard
  else .literal segment

def afterElem (segment : Bytes) (parts : List Bytes) : List Bytes :=
  if elemOf segment = .wildcard then [] else parts

def shape : List Bytes → List Elem
  | [] => []
  | segment :: parts => elemOf segment :: if elemOf segment = .wildcard then [] else shape parts

theorem shapeCons (segment : Bytes) (parts : List Bytes) :
    shape (segment :: parts) = elemOf segment :: shape (afterElem segment parts) := by
  by_cases ends : elemOf segment = .wildcard <;> simp [shape, afterElem, ends]

def TrieNode.child : Elem → TrieNode HandleFunc → Option (TrieNode HandleFunc)
  | .literal segment, node => node.children segment
  | .parameter, node => node.paramChild
  | .wildcard, node => node.wildcardChild

def TrieNode.setChild (node : TrieNode HandleFunc) (e : Elem) (grown : TrieNode HandleFunc) :
    TrieNode HandleFunc :=
  match e with
  | .literal segment => {node with children := Function.update node.children segment (some grown)}
  | .parameter => {node with paramChild := some grown}
  | .wildcard => {node with wildcardChild := some grown}

@[simp] theorem childSetChild (e : Elem) (grown node : TrieNode HandleFunc) :
    (node.setChild e grown).child e = some grown := by
  cases e <;> simp [TrieNode.child, TrieNode.setChild]

theorem childSetOther {e other : Elem} (different : other ≠ e) (grown node : TrieNode HandleFunc) :
    (node.setChild e grown).child other = node.child other := by
  cases e with
  | literal segment =>
    cases other with
    | literal s => exact Function.update_of_ne (fun same => different (congrArg Elem.literal same)) _ _
    | parameter | wildcard => rfl
  | parameter =>
    cases other with
    | parameter => exact absurd rfl different
    | literal s | wildcard => rfl
  | wildcard =>
    cases other with
    | wildcard => exact absurd rfl different
    | literal s | parameter => rfl

structure Slot (HandleFunc : Type) where
  paramName : Bytes
  wildcardName : Bytes
  handles : List HandleFunc
  isEnd : Bool

def TrieNode.slot (node : TrieNode HandleFunc) : Slot HandleFunc :=
  ⟨node.paramName, node.wildcardName, node.handles, node.isEnd⟩

def Slot.finish (handles : List HandleFunc) (slot : Slot HandleFunc) : Slot HandleFunc :=
  {slot with handles := slot.handles ++ handles, isEnd := true}

def freshNode (segment : Bytes) : TrieNode HandleFunc :=
  match elemOf segment with
  | .literal _ => TrieNode.new
  | .parameter => {TrieNode.new with paramName := segment.drop 1}
  | .wildcard => {TrieNode.new with wildcardName := segment.drop 1}

@[simp] theorem freshNodeChild (e : Elem) (segment : Bytes) :
    (freshNode segment : TrieNode HandleFunc).child e = none := by
  cases e <;> cases kind : elemOf segment <;> simp [freshNode, kind, TrieNode.child, TrieNode.new]

def freshSlot : List Bytes → List Elem → Slot HandleFunc
  | segment :: _, [_] => (freshNode segment).slot
  | segment :: parts, _ :: s => freshSlot (afterElem segment parts) s
  | _, _ => (TrieNode.new).slot

def slotAt : List Elem → TrieNode HandleFunc → Option (Slot HandleFunc)
  | [], node => some node.slot
  | e :: s, node => (node.child e).bind (slotAt s)

@[simp] theorem slotSetChild (e : Elem) (grown node : TrieNode HandleFunc) :
    (node.setChild e grown).slot = node.slot := by
  cases e <;> rfl

def Slot.text : Elem → Slot HandleFunc → Bytes
  | .literal segment, _ => segment
  | .parameter, slot => colon :: slot.paramName
  | .wildcard, slot => asterisk :: slot.wildcardName

def TrieNode.next (cur : TrieNode HandleFunc) (segment : Bytes) : TrieNode HandleFunc :=
  (cur.child (elemOf segment)).getD (freshNode segment)

theorem insertCons (handles : List HandleFunc) (segment : Bytes) (parts : List Bytes) (pattern : Bytes)
    (cur : TrieNode HandleFunc) :
    insertAt handles (segment :: parts) pattern cur =
      cur.setChild (elemOf segment) (insertAt handles (afterElem segment parts)
        (pattern ++ slash :: (cur.next segment).slot.text (elemOf segment)) (cur.next segment)) := by
  rw [insertAt]
  by_cases parameter : segment.head? = some colon
  · have kind : elemOf segment = .parameter := if_pos parameter
    rw [if_pos parameter]
    simp only [kind, afterElem, TrieNode.next, freshNode, TrieNode.child, TrieNode.setChild, reduceCtorEq,
      if_false, List.append_assoc]
    rfl
  · by_cases wildcard : segment.head? = some asterisk
    · have kind : elemOf segment = .wildcard := (if_neg parameter).trans (if_pos wildcard)
      rw [if_neg parameter, if_pos wildcard]
      simp only [kind, afterElem, TrieNode.next, freshNode, TrieNode.child, TrieNode.setChild, if_true,
        List.append_assoc]
      rfl
    · have kind : elemOf segment = .literal segment := (if_neg parameter).trans (if_neg wildcard)
      rw [if_neg parameter, if_neg wildcard]
      simp only [kind, afterElem, TrieNode.next, freshNode, TrieNode.child, TrieNode.setChild, reduceCtorEq,
        if_false, List.append_assoc]
      rfl

theorem slotInsert (handles : List HandleFunc) (parts : List Bytes) (s : List Elem) (pattern : Bytes)
    (node : TrieNode HandleFunc) :
    slotAt s (insertAt handles parts pattern node) =
      if s = shape parts then some (((slotAt s node).getD (freshSlot parts s)).finish handles)
      else if s <+: shape parts then some ((slotAt s node).getD (freshSlot parts s))
      else slotAt s node := by
  induction s generalizing parts pattern node with
  | nil =>
    cases parts with
    | nil => rfl
    | cons segment parts =>
      rw [insertCons, shapeCons, if_neg (by simp), if_pos List.nil_prefix]
      simp [slotAt]
  | cons e s ih =>
    cases parts with
    | nil => simp [insertAt, shape, slotAt]; cases e <;> rfl
    | cons segment parts =>
      rw [insertCons, shapeCons]
      by_cases same : e = elemOf segment
      · subst same
        simp only [slotAt, childSetChild, Option.bind_some, ih, List.cons_prefix_cons, List.cons.injEq, true_and,
          TrieNode.next]
        cases known : node.child (elemOf segment) with
        | some child =>
          cases s with
          | nil => simp [slotAt]
          | cons e s => simp only [Option.getD_some, Option.bind_some, freshSlot]
        | none =>
          cases s with
          | nil => simp [slotAt, freshSlot]
          | cons e s => simp [slotAt, freshSlot]
      · simp [slotAt, childSetOther same, same]

@[simp] theorem freshSlotOpen (parts : List Bytes) (s : List Elem) :
    (freshSlot parts s : Slot HandleFunc).handles = [] ∧ (freshSlot parts s : Slot HandleFunc).isEnd = false := by
  fun_induction freshSlot parts s with
  | case1 segment parts e =>
    cases kind : elemOf segment <;> simp [freshNode, kind, TrieNode.slot, TrieNode.new]
  | case2 segment parts e s more ih => exact ih
  | case3 => exact ⟨rfl, rfl⟩

def handlesAt (s : List Elem) (node : TrieNode HandleFunc) : List HandleFunc :=
  (slotAt s node).elim [] Slot.handles

def endedAt (s : List Elem) (node : TrieNode HandleFunc) : Bool := (slotAt s node).any Slot.isEnd

@[simp] theorem endedNil (node : TrieNode HandleFunc) : endedAt [] node = node.isEnd := rfl

@[simp] theorem handlesNil (node : TrieNode HandleFunc) : handlesAt [] node = node.handles := rfl

theorem handlesCons (e : Elem) (s : List Elem) (node : TrieNode HandleFunc) :
    handlesAt (e :: s) node = (node.child e).elim [] (handlesAt s) := by
  simp only [handlesAt, slotAt]
  cases node.child e <;> simp [handlesAt]

theorem endedCons (e : Elem) (s : List Elem) (node : TrieNode HandleFunc) :
    endedAt (e :: s) node = (node.child e).any (endedAt s) := by
  simp only [endedAt, slotAt]
  cases node.child e <;> simp [endedAt]

def patternAt : List Elem → TrieNode HandleFunc → Bytes
  | [], node => node.routePattern
  | e :: s, node => (node.child e).elim [] (patternAt s)

theorem handlesInsert (handles : List HandleFunc) (path : Bytes) (s : List Elem) (root : TrieNode HandleFunc) :
    handlesAt s (insert root path handles) =
      handlesAt s root ++ if shape (splitPath path) = s then handles else [] := by
  simp only [handlesAt, insert, slotInsert, eq_comm (a := s)]
  split
  · cases slotAt s root <;> simp [Slot.finish]
  · split
    · cases slotAt s root <;> simp
    · simp

theorem endedInsert (handles : List HandleFunc) (path : Bytes) (s : List Elem) (root : TrieNode HandleFunc) :
    endedAt s (insert root path handles) = true ↔ endedAt s root = true ∨ shape (splitPath path) = s := by
  simp only [endedAt, insert, slotInsert, eq_comm (a := s)]
  split
  case isTrue here => simp [Slot.finish, here]
  case isFalse elsewhere =>
    simp only [elsewhere, or_false]
    split
    · cases slotAt s root <;> simp
    · rfl

theorem buildAppend (routes : List (Bytes × List HandleFunc)) (route : Bytes × List HandleFunc) :
    build (routes ++ [route]) = insert (build routes) route.1 route.2 := by
  simp [build]

theorem slotBuildNil (s : List Elem) : slotAt s (build ([] : List (Bytes × List HandleFunc))) =
    if s = [] then some TrieNode.new.slot else none := by
  cases s with
  | nil => rfl
  | cons e s => cases e <;> rfl

theorem handlesBuild (routes : List (Bytes × List HandleFunc)) (s : List Elem) :
    handlesAt s (build routes) =
      (routes.filter (fun route => shape (splitPath route.1) = s)).flatMap (·.2) := by
  induction routes using List.reverseRecOn with
  | nil =>
    rw [handlesAt, slotBuildNil]
    split <;> rfl
  | append_singleton routes route ih =>
    rw [buildAppend, handlesInsert, ih, List.filter_append, List.flatMap_append]
    by_cases here : shape (splitPath route.1) = s <;> simp [here]

theorem endedBuild (routes : List (Bytes × List HandleFunc)) (s : List Elem) :
    endedAt s (build routes) = true ↔ ∃ route ∈ routes, shape (splitPath route.1) = s := by
  induction routes using List.reverseRecOn with
  | nil =>
    rw [endedAt, slotBuildNil]
    split <;> simp [TrieNode.slot, TrieNode.new]
  | append_singleton routes route ih => simp [buildAppend, endedInsert, ih, or_and_right, exists_or]

end Registration

end Uco.PrefixTree
