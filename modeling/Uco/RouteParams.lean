import Uco.RouteSelection

/-! The parameters of a match. A node keeps the name it was created with, and a
branch that fails erases the names it bound even where an outer node of the
branch that wins has bound the same name. -/
namespace Uco.RouteParams
open PrefixTree RouteSelection

variable {HandleFunc : Type}

def bindShape : List Elem → List Bytes → List Bytes → Params → Params
  | .literal _ :: w, _ :: names, _ :: parts, params => bindShape w names parts params
  | .parameter :: w, name :: names, part :: parts, params => bindShape w names parts (setParam params name part)
  | .wildcard :: _, name :: _, parts, params => setParam params name (joinRest parts)
  | _, _, _, params => params

def boundNames : List Elem → List Bytes → List Bytes
  | .literal _ :: w, _ :: names => boundNames w names
  | .parameter :: w, name :: names => name :: boundNames w names
  | .wildcard :: _, name :: _ => [name]
  | _, _ => []

def writtenNames (pattern : Bytes) : List Bytes := (splitPath pattern).map (·.drop 1)

def noParams : Params := fun _ => none

def ownParams (pattern path : Bytes) : Params :=
  bindShape (shape (splitPath pattern)) (writtenNames pattern) (splitPath path) noParams

def registeredName (routes : List (Bytes × List HandleFunc)) (s : List Elem) : Option Bytes :=
  (routes.find? (fun route => s <+: shape (splitPath route.1))).map
    (fun route => (writtenNames route.1).getD (s.length - 1) [])

def firstNames (routes : List (Bytes × List HandleFunc)) : List Elem → List Elem → List Bytes
  | _, [] => []
  | before, e :: w => (registeredName routes (before ++ [e])).getD [] :: firstNames routes (before ++ [e]) w

def firstParams (routes : List (Bytes × List HandleFunc)) (w : List Elem) (path : Bytes) : Params :=
  bindShape w (firstNames routes [] w) (splitPath path) noParams

inductive Enters : List Elem → List Bytes → Prop where
  | here (segment parts) : Enters [.parameter] (segment :: parts)
  | literal {segment t parts} (rest : Enters t parts) : Enters (.literal segment :: t) (segment :: parts)
  | parameter {t parts} (segment) (rest : Enters t parts) : Enters (.parameter :: t) (segment :: parts)

def Precedes : Elem → Elem → Prop
  | .literal _, .parameter | .literal _, .wildcard | .parameter, .wildcard => True
  | _, _ => False

def Lost (named : List Elem → Option Bytes) (w : List Elem) (names parts : List Bytes) (name : Bytes) : Prop :=
  ∃ u e t f rest, w = u ++ f :: rest ∧ Precedes e f ∧ Enters (u ++ e :: t) parts ∧
    named (u ++ e :: t) = some name ∧ name ∉ boundNames (f :: rest) (names.drop u.length)

section Binding

theorem bindUnbound {w : List Elem} {names parts : List Bytes} {name : Bytes} (unbound : name ∉ boundNames w names)
    (params : Params) : bindShape w names parts params name = params name := by
  fun_induction bindShape w names parts params with
  | case1 s w n names p parts params ih => exact ih (by simpa [boundNames] using unbound)
  | case2 w n names p parts params ih =>
    simp only [boundNames, List.mem_cons, not_or] at unbound
    rw [ih unbound.2, setParam, Function.update_of_ne unbound.1]
  | case3 w n names parts params =>
    simp only [boundNames, List.mem_singleton] at unbound
    rw [setParam, Function.update_of_ne unbound]
  | case4 => rfl

theorem bindBound {w : List Elem} {names parts : List Bytes} (fits : Matches w parts) {name : Bytes}
    (bound : name ∈ boundNames w names) (params other : Params) :
    bindShape w names parts params name = bindShape w names parts other name := by
  induction fits generalizing names params other with
  | exact => simp [boundNames] at bound
  | literal rest ih =>
    cases names with
    | nil => simp [boundNames] at bound
    | cons n names => exact ih (by simpa [boundNames] using bound) params other
  | @parameter segment s parts rest ih =>
    cases names with
    | nil => simp [boundNames] at bound
    | cons n names =>
      by_cases later : name ∈ boundNames s names
      · exact ih later _ _
      · have same : name = n := by simpa [boundNames, later] using bound
        subst same
        simp only [bindShape, bindUnbound later, setParam, Function.update_self]
  | wildcard parts =>
    cases names with
    | nil => simp [boundNames] at bound
    | cons n names =>
      have same : name = n := by simpa [boundNames] using bound
      simp [bindShape, setParam, same]

end Binding

section Tree

def nameOf : Elem → Slot HandleFunc → Bytes
  | .literal segment, _ => segment.drop 1
  | .parameter, slot => slot.paramName
  | .wildcard, slot => slot.wildcardName

def namesAlong : List Elem → TrieNode HandleFunc → List Bytes
  | [], _ => []
  | e :: w, node => (node.child e).elim [] (fun child => nameOf e child.slot :: namesAlong w child)

def lostAlong : List Elem → List Bytes → TrieNode HandleFunc → List Bytes
  | .literal segment :: w, _ :: parts, node => (node.children segment).elim [] (lostAlong w parts)
  | .parameter :: w, segment :: parts, node =>
    (attemptedLiteral segment parts node).filter
        (fun name => name ∉ boundNames (.parameter :: w) (namesAlong (.parameter :: w) node)) ++
      node.paramChild.elim [] (lostAlong w parts)
  | .wildcard :: w, parts, node =>
    (attempted parts node).filter
      (fun name => name ∉ boundNames (.wildcard :: w) (namesAlong (.wildcard :: w) node))
  | _, _, _ => []

theorem bindAfterClear {w : List Elem} {names parts : List Bytes} (fits : Matches w parts) (erased : List Bytes)
    (params : Params) :
    bindShape w names parts (clear erased params) =
      clear (erased.filter (fun name => name ∉ boundNames w names)) (bindShape w names parts params) := by
  funext name
  by_cases bound : name ∈ boundNames w names
  · simp [clear, bound, bindBound fits bound (clear erased params) params]
  · simp [clear, bound, bindUnbound bound]

theorem bindAlongClear {node : TrieNode HandleFunc} {parts : List Bytes} {w : List Elem}
    (found : Finds node parts w) (params : Params) :
    bindAlong w parts node params = clear (lostAlong w parts node) (bindShape w (namesAlong w node) parts params) := by
  induction found generalizing params with
  | exact => simp [bindAlong, lostAlong, bindShape]
  | literal known below ih =>
    simp only [bindAlong, lostAlong, namesAlong, TrieNode.child, known, Option.elim_some, bindShape, ih]
  | @parameter node segment child parts w literals known below ih =>
    have fits : Matches (.parameter :: w) (segment :: parts) := .parameter (findsFits below).1
    simp only [bindAlong, lostAlong, known, Option.elim_some]
    rw [ih, clearAppend, ← bindAfterClear fits]
    simp only [namesAlong, TrieNode.child, known, Option.elim_some, bindShape, nameOf, TrieNode.slot]
  | emptyRest open' known ended =>
    simp [bindAlong, lostAlong, namesAlong, TrieNode.child, known, attempted, bindShape, nameOf, TrieNode.slot]
  | @wildcard node segment parts wild literals params' known ended =>
    have fits : Matches [.wildcard] (segment :: parts) := .wildcard _
    rw [lostAlong, ← bindAfterClear fits]
    simp only [bindAlong, namesAlong, TrieNode.child, known, Option.elim_some, bindShape, nameOf, TrieNode.slot]

def storedName (node : TrieNode HandleFunc) (t : List Elem) : Option Bytes := (slotAt t node).map Slot.paramName

theorem storedCons (node : TrieNode HandleFunc) (e : Elem) (t : List Elem) :
    storedName node (e :: t) = (node.child e).bind (fun child => storedName child t) := by
  simp only [storedName, slotAt]
  cases node.child e <;> rfl

theorem entersCons {e : Elem} {t : List Elem} {segment : Bytes} {parts : List Bytes} :
    Enters (e :: t) (segment :: parts) ↔
      (e = .literal segment ∧ Enters t parts) ∨ (e = .parameter ∧ (t = [] ∨ Enters t parts)) := by
  constructor
  · rintro (_ | rest | ⟨_, rest⟩)
    · exact .inr ⟨rfl, .inl rfl⟩
    · exact .inl ⟨rfl, rest⟩
    · exact .inr ⟨rfl, .inr rest⟩
  · rintro (⟨rfl, rest⟩ | ⟨rfl, rfl | rest⟩)
    · exact .literal rest
    · exact .here segment parts
    · exact .parameter segment rest

theorem attemptedIff (name : Bytes) (parts : List Bytes) (node : TrieNode HandleFunc) :
    name ∈ attempted parts node ↔ ∃ t, Enters t parts ∧ storedName node t = some name := by
  induction parts generalizing node with
  | nil =>
    simp only [attempted, List.not_mem_nil, false_iff]
    rintro ⟨t, ⟨⟩, _⟩
  | cons segment parts ih =>
    rw [attemptedCons, List.mem_append]
    constructor
    · rintro (inLiteral | inParam)
      · cases known : node.children segment with
        | none => simp [attemptedLiteral, known] at inLiteral
        | some child =>
          obtain ⟨t, enters, stored⟩ := (ih child).mp (by simpa [attemptedLiteral, known] using inLiteral)
          exact ⟨_, .literal enters, by simpa [storedCons, TrieNode.child, known] using stored⟩
      · cases known : node.paramChild with
        | none => simp [attemptedParam, known] at inParam
        | some child =>
          simp only [attemptedParam, known, Option.elim_some, List.mem_cons] at inParam
          rcases inParam with rfl | deeper
          · exact ⟨_, .here segment parts, by simp [storedName, slotAt, TrieNode.child, known, TrieNode.slot]⟩
          · obtain ⟨t, enters, stored⟩ := (ih child).mp deeper
            exact ⟨_, .parameter segment enters, by simpa [storedCons, TrieNode.child, known] using stored⟩
    · rintro ⟨t, enters, stored⟩
      cases enters with
      | here =>
        cases known : node.paramChild with
        | none => simp [storedCons, TrieNode.child, known] at stored
        | some child =>
          refine .inr ?_
          simp only [storedName, slotAt, TrieNode.child, known, Option.bind_some, Option.map_some,
            Option.some.injEq] at stored
          simp [attemptedParam, known, ← stored, TrieNode.slot]
      | literal rest =>
        obtain ⟨child, known, stored⟩ := Option.bind_eq_some_iff.mp ((storedCons _ _ _).symm.trans stored)
        exact .inl (by
          simp only [TrieNode.child] at known
          simpa [attemptedLiteral, known] using (ih child).mpr ⟨_, rest, stored⟩)
      | parameter _ rest =>
        obtain ⟨child, known, stored⟩ := Option.bind_eq_some_iff.mp ((storedCons _ _ _).symm.trans stored)
        exact .inr (by
          simp only [TrieNode.child] at known
          simpa [attemptedParam, known] using .inr ((ih child).mpr ⟨_, rest, stored⟩))

theorem lostCons {named : List Elem → Option Bytes} {f : Elem} {w : List Elem} {n segment : Bytes}
    {names parts : List Bytes} {name : Bytes} (follows : f = .literal segment ∨ f = .parameter) :
    Lost named (f :: w) (n :: names) (segment :: parts) name ↔
      (∃ e t, Precedes e f ∧ Enters (e :: t) (segment :: parts) ∧ named (e :: t) = some name ∧
        name ∉ boundNames (f :: w) (n :: names)) ∨ Lost (fun t => named (f :: t)) w names parts name := by
  constructor
  · rintro ⟨u, e, t, g, rest, eq, precedes, enters, stored, unbound⟩
    cases u with
    | nil =>
      cases eq
      exact .inl ⟨e, t, precedes, enters, stored, unbound⟩
    | cons a u =>
      obtain ⟨rfl, rfl⟩ := List.cons.inj eq
      refine .inr ⟨u, e, t, g, rest, rfl, precedes, ?_, stored, unbound⟩
      rcases entersCons.mp enters with ⟨_, rest⟩ | ⟨_, none | rest⟩
      · exact rest
      · simp at none
      · exact rest
  · rintro (⟨e, t, precedes, enters, stored, unbound⟩ | ⟨u, e, t, g, rest, rfl, precedes, enters, stored, unbound⟩)
    · exact ⟨[], e, t, f, w, rfl, precedes, enters, stored, unbound⟩
    · refine ⟨f :: u, e, t, g, rest, rfl, precedes, ?_, stored, unbound⟩
      exact entersCons.mpr (follows.imp (fun h => ⟨h, enters⟩) (fun h => ⟨h, .inr enters⟩))

theorem lostWildcard {named : List Elem → Option Bytes} {names parts : List Bytes} {name : Bytes} :
    Lost named [.wildcard] names parts name ↔
      (∃ t, Enters t parts ∧ named t = some name) ∧ name ∉ boundNames [.wildcard] names := by
  constructor
  · rintro ⟨u, e, t, f, rest, eq, precedes, enters, stored, unbound⟩
    obtain ⟨rfl, same⟩ : u = [] ∧ f :: rest = [.wildcard] := by
      cases u with
      | nil => exact ⟨rfl, eq.symm⟩
      | cons a u => simp at eq
    rw [same] at unbound
    exact ⟨⟨_, enters, stored⟩, unbound⟩
  · rintro ⟨⟨t, enters, stored⟩, unbound⟩
    cases enters with
    | here => exact ⟨[], .parameter, [], .wildcard, [], rfl, trivial, .here _ _, stored, unbound⟩
    | @literal segment t parts rest =>
      exact ⟨[], .literal segment, t, .wildcard, [], rfl, trivial, .literal rest, stored, unbound⟩
    | @parameter t parts segment rest =>
      exact ⟨[], .parameter, t, .wildcard, [], rfl, trivial, .parameter segment rest, stored, unbound⟩

theorem attemptedLiteralIff (name segment : Bytes) (parts : List Bytes) (node : TrieNode HandleFunc) :
    name ∈ attemptedLiteral segment parts node ↔
      ∃ e t, Precedes e .parameter ∧ Enters (e :: t) (segment :: parts) ∧ storedName node (e :: t) = some name := by
  constructor
  · intro inLiteral
    cases known : node.children segment with
    | none => simp [attemptedLiteral, known] at inLiteral
    | some child =>
      obtain ⟨t, enters, stored⟩ := (attemptedIff name parts child).mp (by
        simpa [attemptedLiteral, known] using inLiteral)
      exact ⟨.literal segment, t, trivial, .literal enters, by simpa [storedCons, TrieNode.child, known] using stored⟩
  · rintro ⟨e, t, precedes, enters, stored⟩
    rcases entersCons.mp enters with ⟨rfl, rest⟩ | ⟨rfl, _⟩
    · obtain ⟨child, known, stored⟩ := Option.bind_eq_some_iff.mp ((storedCons _ _ _).symm.trans stored)
      simp only [TrieNode.child] at known
      simpa [attemptedLiteral, known] using (attemptedIff name parts child).mpr ⟨t, rest, stored⟩
    · exact precedes.elim

theorem lostIff {node : TrieNode HandleFunc} {parts : List Bytes} {w : List Elem} (found : Finds node parts w)
    (name : Bytes) :
    name ∈ lostAlong w parts node ↔ Lost (storedName node) w (namesAlong w node) parts name := by
  induction found with
  | exact =>
    simp only [lostAlong, List.not_mem_nil, false_iff]
    rintro ⟨u, e, t, f, rest, eq, _⟩
    simp at eq
  | @literal node segment child parts w known below ih =>
    simp only [lostAlong, namesAlong, TrieNode.child, known, Option.elim_some, ih]
    rw [lostCons (.inl rfl)]
    have here (t) : storedName node (.literal segment :: t) = storedName child t := by
      simp [storedCons, TrieNode.child, known]
    simp only [here]
    refine ⟨.inr, ?_⟩
    rintro (⟨e, t, precedes, _⟩ | below)
    · cases e <;> exact precedes.elim
    · exact below
  | @parameter node segment child parts w literals known below ih =>
    have here (t) : storedName node (.parameter :: t) = storedName child t := by
      simp [storedCons, TrieNode.child, known]
    have names : namesAlong (.parameter :: w) node = child.paramName :: namesAlong w child := by
      simp [namesAlong, TrieNode.child, known, nameOf, TrieNode.slot]
    simp only [lostAlong, known, Option.elim_some, List.mem_append, List.mem_filter, ih, attemptedLiteralIff, names]
    rw [lostCons (.inr rfl)]
    simp only [here, decide_eq_true_eq]
    refine or_congr ⟨?_, ?_⟩ Iff.rfl
    · rintro ⟨⟨e, t, precedes, enters, stored⟩, unbound⟩
      exact ⟨e, t, precedes, enters, stored, unbound⟩
    · rintro ⟨e, t, precedes, enters, stored, unbound⟩
      exact ⟨⟨e, t, precedes, enters, stored⟩, unbound⟩
  | emptyRest | wildcard => simp [lostAlong, lostWildcard, attemptedIff]

end Tree

section Registered

theorem elemLiteral {segment s : Bytes} (kind : elemOf segment = .literal s) : s = segment := by
  unfold elemOf at kind
  split at kind
  · cases kind
  · split at kind <;> cases kind
    rfl

theorem freshName {parts : List Bytes} {u : List Elem} {e : Elem} (along : u ++ [e] <+: shape parts) :
    nameOf e (freshSlot parts (u ++ [e]) : Slot HandleFunc) = (parts.map (·.drop 1)).getD u.length [] := by
  induction u generalizing parts with
  | nil =>
    cases parts with
    | nil => simp [shape] at along
    | cons segment parts =>
      rw [shapeCons] at along
      obtain rfl : e = elemOf segment := (List.cons_prefix_cons.mp along).1
      simp only [List.nil_append, freshSlot, List.map_cons, List.length_nil, List.getD_cons_zero]
      cases kind : elemOf segment with
      | literal s => rw [nameOf, elemLiteral kind]
      | parameter | wildcard => simp [nameOf, freshNode, kind, TrieNode.slot]
  | cons a u ih =>
    cases parts with
    | nil => simp [shape] at along
    | cons segment parts =>
      rw [shapeCons, List.cons_append, List.cons_prefix_cons] at along
      have more := ih along.2
      by_cases ends : elemOf segment = .wildcard
      · simp [afterElem, ends, shape] at along
      · rw [afterElem, if_neg ends] at more
        cases u with
        | nil => simpa [freshSlot, afterElem, ends] using more
        | cons b u => simpa [freshSlot, afterElem, ends] using more

theorem nameOfFinish (e : Elem) (handles : List HandleFunc) (slot : Slot HandleFunc) :
    nameOf e (slot.finish handles) = nameOf e slot := by
  cases e <;> rfl

theorem nameInsert (handles : List HandleFunc) (path : Bytes) (e : Elem) (s : List Elem)
    (root : TrieNode HandleFunc) :
    (slotAt s (PrefixTree.insert root path handles)).map (nameOf e) =
      if s <+: shape (splitPath path) then
        some (nameOf e ((slotAt s root).getD (freshSlot (splitPath path) s)))
      else (slotAt s root).map (nameOf e) := by
  rw [PrefixTree.insert, slotInsert]
  by_cases last : s = shape (splitPath path)
  · rw [if_pos last, if_pos (last ▸ List.prefix_rfl), Option.map_some, nameOfFinish]
  · rw [if_neg last]
    split <;> rfl

theorem namesBuild (routes : List (Bytes × List HandleFunc)) (u : List Elem) (e : Elem) :
    (slotAt (u ++ [e]) (build routes)).map (nameOf e) = registeredName routes (u ++ [e]) := by
  induction routes using List.reverseRecOn with
  | nil => simp [slotBuildNil, registeredName]
  | append_singleton routes route ih =>
    simp only [registeredName, List.length_append, List.length_singleton, Nat.add_sub_cancel] at ih ⊢
    rw [buildAppend, nameInsert, List.find?_append]
    by_cases along : u ++ [e] <+: shape (splitPath route.1)
    · rw [if_pos along]
      cases known : slotAt (u ++ [e]) (build routes) with
      | none =>
        rw [known, Option.map_none, eq_comm, Option.map_eq_none_iff] at ih
        simp [ih, along, freshName along, writtenNames]
      | some slot =>
        rw [known, Option.map_some, eq_comm, Option.map_eq_some_iff] at ih
        obtain ⟨first, found, same⟩ := ih
        simp [found, ← same]
    · rw [if_neg along, ih]
      simp [along]

theorem namesAlongBuild (routes : List (Bytes × List HandleFunc)) {before w : List Elem}
    {node : TrieNode HandleFunc} (reached : ∀ s, slotAt (before ++ s) (build routes) = slotAt s node)
    (ended : endedAt w node = true) : namesAlong w node = firstNames routes before w := by
  induction w generalizing before node with
  | nil => rfl
  | cons e w ih =>
    obtain ⟨child, known, deeper⟩ := endedBelow ended
    have here : registeredName routes (before ++ [e]) = some (nameOf e child.slot) := by
      rw [← namesBuild, reached]
      simp [slotAt, known]
    have next (s) : slotAt ((before ++ [e]) ++ s) (build routes) = slotAt s child := by
      rw [List.append_assoc, reached]
      simp [slotAt, known]
    simp [namesAlong, known, firstNames, here, ih next deeper]

theorem entersParameter {t : List Elem} {parts : List Bytes} (enters : Enters t parts) : ∃ u, t = u ++ [.parameter] := by
  induction enters with
  | here => exact ⟨[], rfl⟩
  | @literal segment t parts rest ih =>
    obtain ⟨u, rfl⟩ := ih
    exact ⟨.literal segment :: u, rfl⟩
  | parameter segment rest ih =>
    obtain ⟨u, rfl⟩ := ih
    exact ⟨.parameter :: u, rfl⟩

theorem storedRegistered (routes : List (Bytes × List HandleFunc)) {t : List Elem} {parts : List Bytes}
    (enters : Enters t parts) : storedName (build routes) t = registeredName routes t := by
  obtain ⟨u, rfl⟩ := entersParameter enters
  exact namesBuild routes u .parameter

theorem lostCongr {named other : List Elem → Option Bytes} {w : List Elem} {names parts : List Bytes} {name : Bytes}
    (agree : ∀ t, Enters t parts → named t = other t) :
    Lost named w names parts name → Lost other w names parts name := by
  rintro ⟨u, e, t, f, rest, eq, precedes, enters, stored, unbound⟩
  exact ⟨u, e, t, f, rest, eq, precedes, enters, agree _ enters ▸ stored, unbound⟩

end Registered

def LostName (routes : List (Bytes × List HandleFunc)) (path : Bytes) (w : List Elem) (name : Bytes) : Prop :=
  Lost (registeredName routes) w (firstNames routes [] w) (splitPath path) name

theorem lostBuilt {routes : List (Bytes × List HandleFunc)} {path : Bytes} {w : List Elem}
    (wins : Wins routes path w) (name : Bytes) :
    name ∈ lostAlong w (splitPath path) (build routes) ↔ LostName routes path w name := by
  have found := winsFound wins
  have names : namesAlong w (build routes) = firstNames routes [] w :=
    namesAlongBuild routes (fun s => rfl) (findsFits found).2
  rw [lostIff found, names]
  exact ⟨lostCongr fun t enters => storedRegistered routes enters,
    lostCongr fun t enters => (storedRegistered routes enters).symm⟩

theorem paramsFound {routes : List (Bytes × List HandleFunc)} {path : Bytes} {w : List Elem}
    (wins : Wins routes path w) (name : Bytes) :
    (LostName routes path w name → (matchRoute (build routes) path).2.params name = none) ∧
    (¬ LostName routes path w name →
      (matchRoute (build routes) path).2.params name = firstParams routes w path name) := by
  have found := winsFound wins
  have names : namesAlong w (build routes) = firstNames routes [] w :=
    namesAlongBuild routes (fun s => rfl) (findsFits found).2
  have params : (matchRoute (build routes) path).2.params =
      clear (lostAlong w (splitPath path) (build routes)) (firstParams routes w path) := by
    rw [matchRoute, (dfsFinds found _).2.2.1, bindAlongClear found, names]
    rfl
  rw [params, ← lostBuilt wins]
  exact ⟨fun inside => by simp [clear, inside], fun outside => by simp [clear, outside]⟩

/- The parameters are those of every route of the winning shape exactly when each
name lost is one that the route does not bind, and each other name is bound by
the route's own names as by the names registered first. -/
theorem paramsExactIff {routes : List (Bytes × List HandleFunc)} {path : Bytes} {w : List Elem}
    (wins : Wins routes path w) :
    (∀ route ∈ routes, shape (splitPath route.1) = w →
      (matchRoute (build routes) path).2.params = ownParams route.1 path) ↔
    ∀ route ∈ routes, shape (splitPath route.1) = w → ∀ name,
      (LostName routes path w name → ownParams route.1 path name = none) ∧
      (¬ LostName routes path w name → ownParams route.1 path name = firstParams routes w path name) := by
  constructor
  · intro exact' route registered same name
    have own := congrFun (exact' route registered same) name
    obtain ⟨lost, kept⟩ := paramsFound wins name
    exact ⟨fun h => own.symm.trans (lost h), fun h => own.symm.trans (kept h)⟩
  · intro condition route registered same
    funext name
    obtain ⟨lost, kept⟩ := paramsFound wins name
    obtain ⟨ownLost, ownKept⟩ := condition route registered same name
    by_cases h : LostName routes path w name
    · rw [lost h, ownLost h]
    · rw [kept h, ownKept h]

theorem restWins {second : Bytes} (other : shape (splitPath second) = [.parameter, .parameter, .literal (bytes "edit")]) :
    Wins [(bytes "/:user/*rest", [1]), (second, [2])] (bytes "/1/2/show") [.parameter, .wildcard] := by
  have pattern : shape (splitPath (bytes "/:user/*rest")) = [.parameter, .wildcard] := by decide
  have path : splitPath (bytes "/1/2/show") = [[49], [50], bytes "show"] := by decide
  refine ⟨⟨_, List.mem_cons_self, pattern⟩, path ▸ .parameter (.wildcard _), fun route registered fits => ?_⟩
  rcases List.mem_cons.mp registered with rfl | registered
  · exact .inl pattern
  · obtain rfl := List.mem_singleton.mp registered
    rw [other, path] at fits
    cases fits with
    | parameter rest =>
      cases rest with
      | parameter rest => exact absurd (matchesLiteral rest).1 (by decide)

def teamRoutes : List (Bytes × List Nat) := [(bytes "/:user/*rest", [1]), (bytes "/:group/:team/edit", [2])]

theorem userKept : (matchRoute (build teamRoutes) (bytes "/1/2/show")).2.params =
    ownParams (bytes "/:user/*rest") (bytes "/1/2/show") := by
  have pattern : shape (splitPath (bytes "/:user/*rest")) = [.parameter, .wildcard] := by decide
  have other : shape (splitPath (bytes "/:group/:team/edit")) =
      [.parameter, .parameter, .literal (bytes "edit")] := by decide
  have wins : Wins teamRoutes (bytes "/1/2/show") [.parameter, .wildcard] := restWins other
  have lost : lostAlong [.parameter, .wildcard] (splitPath (bytes "/1/2/show")) (build teamRoutes) = [bytes "team"] := by
    decide
  have names : firstNames teamRoutes [] [.parameter, .wildcard] = writtenNames (bytes "/:user/*rest") := by decide
  refine (paramsExactIff wins).mpr (fun route registered same name => ?_) _ List.mem_cons_self pattern
  rcases List.mem_cons.mp registered with rfl | registered
  · rw [← lostBuilt wins, lost, ownParams, firstParams, pattern, names]
    refine ⟨fun erased => ?_, fun _ => rfl⟩
    obtain rfl := List.mem_singleton.mp erased
    decide
  · obtain rfl := List.mem_singleton.mp registered
    cases other.symm.trans same

def editRoutes : List (Bytes × List Nat) := [(bytes "/:user/*rest", [1]), (bytes "/:group/:user/edit", [2])]

theorem userErased :
    ¬ ∀ (routes : List (Bytes × List Nat)) (path : Bytes) (w : List Elem), Wins routes path w →
      ∀ route ∈ routes, shape (splitPath route.1) = w →
        (matchRoute (build routes) path).2.params = ownParams route.1 path := by
  intro always
  have pattern : shape (splitPath (bytes "/:user/*rest")) = [.parameter, .wildcard] := by decide
  have wins : Wins editRoutes (bytes "/1/2/show") [.parameter, .wildcard] := restWins (by decide)
  have outer := congrFun (always editRoutes _ _ wins _ List.mem_cons_self pattern) (bytes "user")
  exact absurd outer (by decide)

end Uco.RouteParams
