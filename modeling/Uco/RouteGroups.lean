import Uco.PrefixTree
import Uco.StaticPath
import Mathlib.Data.List.Forall2

/-! Route groups: prefixes are joined and middleware is collected level by level, and a route
goes into the method's tree with the whole chain. A program makes groups and registers routes
in any order; a group is named by its place in the order of their creation. -/
namespace Uco.RouteGroups
open FilePath PrefixTree
open StaticPath (HttpMethod skipSlashes segmentsSkip)

section Paths

/- while (base.size() > 1 && base.back() == '/') base.pop_back(). -/
def popSlashes (base : Bytes) : Bytes :=
  if 1 < base.length ∧ base.getLast? = some slash then popSlashes base.dropLast else base
  termination_by base.length
  decreasing_by
    rw [List.length_dropLast]
    omega

def rooted (base : Bytes) : Bytes := if base ≠ [] ∧ base.head? ≠ some slash then slash :: base else base

def joinPath (mPrefix path : Bytes) : Bytes :=
  let base := popSlashes (rooted mPrefix)
  let rest := skipSlashes path
  if rest = [] then if base = [] then bytes "/" else base
  else if base = [] ∨ base = bytes "/" then slash :: rest
  else base ++ slash :: rest

end Paths

section Model
variable {H : Type}

inductive Middleware (H : Type) where
  | shared (handle : H)
  | perRoute (factory : Bytes → H)

def Middleware.instantiate : Middleware H → Bytes → H
  | .shared handle, _ => handle
  | .perRoute factory, routePattern => factory routePattern

def Middleware.handleFunc (m : Middleware H) : H := m.instantiate []

def Middleware.asked : Middleware H → Bytes → Option Bytes
  | .shared _, _ => none
  | .perRoute _, routePattern => some routePattern

structure RouteGroup (H : Type) where
  mPrefix : Bytes
  mMiddleware : List (Middleware H)

def RouteGroup.group (g : RouteGroup H) (mPrefix : Bytes) (middleware : List (Middleware H)) : RouteGroup H :=
  ⟨joinPath g.mPrefix mPrefix,g.mMiddleware ++ middleware⟩

def RouteGroup.instantiateMiddleware (g : RouteGroup H) (routePattern : Bytes) : List H :=
  g.mMiddleware.map (·.instantiate routePattern)

structure State (H : Type) where
  groups : List (RouteGroup H)
  trees : HttpMethod → TrieNode H

def State.new : State H := ⟨[],fun _ => TrieNode.new⟩

def addRoute (s : State H) (method : HttpMethod) (path : Bytes) (handles : List H) : State H :=
  {s with trees := Function.update s.trees method (insert (s.trees method) path handles)}

inductive Call (H : Type) where
  | serverGroup (mPrefix : Bytes) (middleware : List (Middleware H))
  | group (i : ℕ) (mPrefix : Bytes) (middleware : List (Middleware H))
  | serverRegister (method : HttpMethod) (path : Bytes) (handles : List (Middleware H))
  | register (i : ℕ) (method : HttpMethod) (path : Bytes) (handles : List (Middleware H))
  | serverStatic (path : Bytes)
  | static (i : ℕ) (path : Bytes)

def Call.route (defaultHandle : H) (groups : List (RouteGroup H)) : Call H → Option (HttpMethod × Bytes × List H)
  | .serverRegister method path handles => some (method,path,handles.map Middleware.handleFunc)
  | .register i method path handles => groups[i]?.map fun g =>
    let fullPath := joinPath g.mPrefix path
    (method,fullPath,g.instantiateMiddleware fullPath ++ handles.map Middleware.handleFunc)
  | .serverStatic path => some (.get,path,[defaultHandle])
  | .static i path => groups[i]?.map fun g =>
    let fullPath := joinPath g.mPrefix path
    (.get,fullPath,g.instantiateMiddleware fullPath ++ [defaultHandle])
  | _ => none

def Call.handlers : Call H → List (Middleware H)
  | .serverRegister _ _ handles => handles
  | .register _ _ _ handles => handles
  | _ => []

def Call.asked (groups : List (RouteGroup H)) (call : Call H) : List Bytes :=
  let chain := match call with
    | .register i _ path _ | .static i path => groups[i]?.elim [] fun g =>
      g.mMiddleware.filterMap (·.asked (joinPath g.mPrefix path))
    | _ => []
  chain ++ call.handlers.filterMap (·.asked [])

def Call.made (groups : List (RouteGroup H)) : Call H → Option (RouteGroup H)
  | .serverGroup mPrefix middleware => some ⟨mPrefix,middleware⟩
  | .group i mPrefix middleware => groups[i]?.map (·.group mPrefix middleware)
  | _ => none

def step (defaultHandle : H) (s : State H) (call : Call H) : State H :=
  let added := (call.route defaultHandle s.groups).elim s fun route => addRoute s route.1 route.2.1 route.2.2
  {added with groups := s.groups ++ (call.made s.groups).toList}

def run (defaultHandle : H) (calls : List (Call H)) : State H := calls.foldl (step defaultHandle) State.new

end Model

section Purpose
variable {H : Type}

structure Level (H : Type) where
  mPrefix : Bytes
  middleware : List (Middleware H)

def descend (lineages : List (List (Level H))) : Call H → List (List (Level H))
  | .serverGroup mPrefix middleware => lineages ++ [[⟨mPrefix,middleware⟩]]
  | .group i mPrefix middleware => lineages ++ (lineages[i]?.map (· ++ [⟨mPrefix,middleware⟩])).toList
  | _ => lineages

def lineages (calls : List (Call H)) : List (List (Level H)) := calls.foldl descend []

def upToWildcard : List Bytes → List Bytes
  | [] => []
  | segment :: parts => segment :: if elemOf segment = .wildcard then [] else upToWildcard parts

def routesFrom (defaultHandle : H) : State H → List (Call H) → List (HttpMethod × Bytes × List H)
  | _, [] => []
  | s, call :: calls =>
    (call.route defaultHandle s.groups).toList ++ routesFrom defaultHandle (step defaultHandle s call) calls

def registered (defaultHandle : H) (calls : List (Call H)) : List (HttpMethod × Bytes × List H) :=
  routesFrom defaultHandle State.new calls

def ofMethod (method : HttpMethod) (routes : List (HttpMethod × Bytes × List H)) : List (Bytes × List H) :=
  (routes.filter (·.1 = method)).map (·.2)

inductive Registers (defaultHandle : H) (i : ℕ) : Call H → HttpMethod → Bytes → List H → Prop where
  | register (method : HttpMethod) (path : Bytes) (handles : List (Middleware H)) :
    Registers defaultHandle i (.register i method path handles) method path (handles.map Middleware.handleFunc)
  | static (path : Bytes) : Registers defaultHandle i (.static i path) .get path [defaultHandle]

structure Composes (levels : List (Level H)) (g : RouteGroup H) : Prop where
  segments : splitPath g.mPrefix = levels.flatMap fun level => splitPath level.mPrefix
  middleware : g.mMiddleware = levels.flatMap Level.middleware

end Purpose

section Joining

theorem segmentsEnd (base : Bytes) : segments (base ++ [slash]) = segments base := by
  rw [segmentsJoin, segmentsNil, List.append_nil]

theorem segmentsPop (base : Bytes) : segments (popSlashes base) = segments base := by
  induction base using popSlashes.induct with
  | case1 base more ih =>
    rw [popSlashes, if_pos more, ih]
    obtain ⟨front,rfl⟩ := List.getLast?_eq_some_iff.mp more.2
    rw [List.dropLast_concat, segmentsEnd]
  | case2 base stop => rw [popSlashes, if_neg stop]

theorem joinSegments (mPrefix path : Bytes) :
    splitPath (joinPath mPrefix path) = splitPath mPrefix ++ splitPath path := by
  have begun : segments (rooted mPrefix) = segments mPrefix := by
    unfold rooted
    split
    · exact segmentsSlash mPrefix
    · rfl
  have base := (segmentsPop _).trans begun
  have skipped := segmentsSkip path
  have root : segments (bytes "/") = [] := segmentsSlash []
  simp only [splitPath, joinPath]
  rw [← base, ← skipped]
  generalize popSlashes _ = b
  generalize skipSlashes path = rest
  split
  · rename_i none'
    rw [none', segmentsNil, List.append_nil]
    split
    · rename_i empty
      rw [empty, root]
      rfl
    · rfl
  · split
    · rename_i bare
      rw [segmentsSlash]
      rcases bare with rfl | rfl
      · rfl
      · rw [root]
        rfl
    · exact segmentsJoin b rest

theorem insertCut {H : Type} (handles : List H) (parts : List Bytes) (pattern : Bytes) (cur : TrieNode H) :
    insertAt handles (upToWildcard parts) pattern cur = insertAt handles parts pattern cur := by
  induction parts generalizing pattern cur with
  | nil => rfl
  | cons segment parts ih =>
    rw [upToWildcard, insertAt, insertAt]
    by_cases parameter : segment.head? = some colon
    · have kind : elemOf segment = .parameter := if_pos parameter
      rw [if_pos parameter, if_pos parameter, kind]
      simp only [reduceCtorEq, if_false, ih]
    · rw [if_neg parameter, if_neg parameter]
      by_cases wildcard : segment.head? = some asterisk
      · rw [if_pos wildcard, if_pos wildcard]
      · have kind : elemOf segment = .literal segment := (if_neg parameter).trans (if_neg wildcard)
        rw [if_neg wildcard, if_neg wildcard, kind]
        simp only [reduceCtorEq, if_false, ih]

end Joining

section Programs
variable {H : Type} {defaultHandle : H}

theorem runAppend (calls more : List (Call H)) :
    run defaultHandle (calls ++ more) = more.foldl (step defaultHandle) (run defaultHandle calls) :=
  List.foldl_append

@[simp] theorem stepGroups (s : State H) (call : Call H) :
    (step defaultHandle s call).groups = s.groups ++ (call.made s.groups).toList := rfl

@[simp] theorem stepTrees (s : State H) (call : Call H) : (step defaultHandle s call).trees =
    ((call.route defaultHandle s.groups).elim s fun route => addRoute s route.1 route.2.1 route.2.2).trees := rfl

theorem groupsStay (calls more : List (Call H)) :
    (run defaultHandle calls).groups <+: (run defaultHandle (calls ++ more)).groups := by
  rw [runAppend]
  generalize run defaultHandle calls = s
  induction more generalizing s with
  | nil => exact List.prefix_rfl
  | cons call more ih => exact (List.prefix_append _ _).trans (ih (step defaultHandle s call))

theorem relatedGet {R : List (Level H) → RouteGroup H → Prop} {ls : List (List (Level H))}
    {groups : List (RouteGroup H)} (all : List.Forall₂ R ls groups) (i : ℕ) : Option.Rel R ls[i]? groups[i]? := by
  induction all generalizing i with
  | nil => exact .none
  | cons here rest ih =>
    cases i with
    | zero => exact .some here
    | succ i => exact ih i

theorem relatedKnown {R : List (Level H) → RouteGroup H → Prop} {ls : List (List (Level H))}
    {groups : List (RouteGroup H)} (all : List.Forall₂ R ls groups) {i : ℕ} {levels : List (Level H)}
    (nested : ls[i]? = some levels) : ∃ g, groups[i]? = some g ∧ R levels g := by
  have here := relatedGet all i
  rw [nested] at here
  generalize groups[i]? = g at here
  cases here with
  | some related => exact ⟨_,rfl,related⟩

structure Inherited (R : List (Level H) → RouteGroup H → Prop) : Prop where
  first (mPrefix : Bytes) (middleware : List (Middleware H)) : R [⟨mPrefix,middleware⟩] ⟨mPrefix,middleware⟩
  deeper {levels : List (Level H)} {g : RouteGroup H} (related : R levels g) (mPrefix : Bytes)
    (middleware : List (Middleware H)) : R (levels ++ [⟨mPrefix,middleware⟩]) (g.group mPrefix middleware)

theorem inheritedStep {R : List (Level H) → RouteGroup H → Prop} (inherited : Inherited R)
    {ls : List (List (Level H))} {s : State H} (all : List.Forall₂ R ls s.groups) (call : Call H) :
    List.Forall₂ R (descend ls call) (step defaultHandle s call).groups := by
  rw [stepGroups]
  cases call with
  | serverGroup mPrefix middleware =>
    exact List.rel_append all (.cons (inherited.first mPrefix middleware) .nil)
  | group i mPrefix middleware =>
    have parent := relatedGet all i
    simp only [descend, Call.made]
    generalize ls[i]? = levels at parent
    generalize s.groups[i]? = g at parent
    cases parent with
    | none => simpa using all
    | some related => exact List.rel_append all (.cons (inherited.deeper related mPrefix middleware) .nil)
  | serverRegister | register | serverStatic | static => simpa [descend, Call.made] using all

theorem inheritedRun {R : List (Level H) → RouteGroup H → Prop} (inherited : Inherited R) (calls : List (Call H)) :
    List.Forall₂ R (lineages calls) (run defaultHandle calls).groups := by
  induction calls using List.reverseRecOn with
  | nil => exact .nil
  | append_singleton calls call ih =>
    rw [runAppend, lineages, List.foldl_append]
    exact inheritedStep inherited ih call

theorem composesInherited : Inherited (Composes : List (Level H) → RouteGroup H → Prop) where
  first mPrefix middleware := ⟨by simp,by simp⟩
  deeper composes mPrefix middleware := {
    segments := by
      rw [RouteGroup.group, joinSegments, composes.segments]
      simp
    middleware := by
      rw [RouteGroup.group, composes.middleware]
      simp }

theorem routesAppend (s : State H) (calls more : List (Call H)) :
    routesFrom defaultHandle s (calls ++ more) =
      routesFrom defaultHandle s calls ++ routesFrom defaultHandle (calls.foldl (step defaultHandle) s) more := by
  induction calls generalizing s with
  | nil => rfl
  | cons call calls ih => simp only [List.cons_append, routesFrom, ih, List.foldl_cons, List.append_assoc]

theorem registeredAppend (calls : List (Call H)) (call : Call H) :
    registered defaultHandle (calls ++ [call]) = registered defaultHandle calls ++
      (call.route defaultHandle (run defaultHandle calls).groups).toList := by
  rw [registered, routesAppend]
  simp [registered, routesFrom, run]

theorem treesRun (calls : List (Call H)) (method : HttpMethod) :
    (run defaultHandle calls).trees method = build (ofMethod method (registered defaultHandle calls)) := by
  induction calls using List.reverseRecOn with
  | nil => rfl
  | append_singleton calls call ih =>
    rw [runAppend, List.foldl_cons, List.foldl_nil, stepTrees, registeredAppend]
    cases call.route defaultHandle (run defaultHandle calls).groups with
    | none => simpa using ih
    | some route =>
      by_cases here : route.1 = method
      · subst here
        simpa [addRoute, ofMethod, buildAppend] using congrArg (insert · route.2.1 route.2.2) ih
      · simp [addRoute, ofMethod, here, Function.update_of_ne (Ne.symm here), ih]

theorem registersTrees (calls : List (Call H)) {i : ℕ} {g : RouteGroup H}
    (known : (run defaultHandle calls).groups[i]? = some g) {call : Call H} {method : HttpMethod} {path : Bytes}
    {handles : List H} (registers : Registers defaultHandle i call method path handles) :
    (run defaultHandle (calls ++ [call])).trees = Function.update (run defaultHandle calls).trees method
      (insert ((run defaultHandle calls).trees method) (joinPath g.mPrefix path)
        (g.instantiateMiddleware (joinPath g.mPrefix path) ++ handles)) := by
  rw [runAppend, List.foldl_cons, List.foldl_nil, stepTrees]
  cases registers with
  | register | static => simp [Call.route, known, addRoute]

theorem handlesFree (calls : List (Call H)) (method : HttpMethod) {s : List Elem}
    (free : ∀ route ∈ registered defaultHandle calls, route.1 = method → shape (splitPath route.2.1) ≠ s) :
    handlesAt s ((run defaultHandle calls).trees method) = [] := by
  rw [treesRun, handlesBuild, List.flatMap_eq_nil_iff]
  intro route kept
  obtain ⟨listed,same⟩ := List.mem_filter.mp kept
  obtain ⟨whole,added,rfl⟩ := List.mem_map.mp listed
  obtain ⟨added,ofIt⟩ := List.mem_filter.mp added
  exact absurd (of_decide_eq_true same) (free whole added (of_decide_eq_true ofIt))

/- Nested groups compose: the segments of the prefixes and then of the path, the middleware of
the levels and then the handlers, and every other group and every other shape is as it was. -/
theorem nestedGroups (calls : List (Call H)) {i : ℕ} {levels : List (Level H)}
    (nested : (lineages calls)[i]? = some levels) {call : Call H} {method : HttpMethod} {path : Bytes}
    {handles : List H} (registers : Registers defaultHandle i call method path handles) :
    let before := run defaultHandle calls
    let after := run defaultHandle (calls ++ [call])
    let segs := levels.flatMap (fun level => splitPath level.mPrefix) ++ splitPath path
    ∃ fullPath,
      splitPath fullPath = segs ∧
      let chain := (levels.flatMap Level.middleware).map (·.instantiate fullPath) ++ handles
      after.trees = Function.update before.trees method
        (insertAt chain (upToWildcard segs) [] (before.trees method)) ∧
      ((∀ route ∈ registered defaultHandle calls,
          route.1 = method → shape (splitPath route.2.1) ≠ shape segs) →
        handlesAt (shape segs) (after.trees method) = chain) ∧
      (∀ s, s ≠ shape segs → handlesAt s (after.trees method) = handlesAt s (before.trees method)) ∧
      ∀ (j : ℕ) (sibling : List (Level H)), (lineages calls)[j]? = some sibling →
        ∃ g, Composes sibling g ∧ ∀ more, (run defaultHandle (calls ++ more)).groups[j]? = some g := by
  intro before after segs
  have all : List.Forall₂ Composes (lineages calls) before.groups := inheritedRun composesInherited calls
  obtain ⟨g,known,composes⟩ := relatedKnown all nested
  have segments : splitPath (joinPath g.mPrefix path) = segs := by rw [joinSegments, composes.segments]
  have chain : g.instantiateMiddleware (joinPath g.mPrefix path) =
      (levels.flatMap Level.middleware).map (·.instantiate (joinPath g.mPrefix path)) := by
    rw [RouteGroup.instantiateMiddleware, composes.middleware]
  have trees := registersTrees calls known registers
  rw [chain] at trees
  have inserted := congrFun trees method
  rw [Function.update_self] at inserted
  refine ⟨joinPath g.mPrefix path,segments,?_,?_,?_,?_⟩
  · rw [insertCut, ← segments]
    exact trees
  · intro free
    rw [inserted, handlesInsert, handlesFree calls method free, segments, if_pos rfl, List.nil_append]
  · intro s other
    rw [inserted, handlesInsert, segments, if_neg (Ne.symm other), List.append_nil]
  · intro j sibling there
    obtain ⟨made,at',composes⟩ := relatedKnown all there
    refine ⟨made,composes,fun more => ?_⟩
    obtain ⟨short,rfl⟩ := List.getElem?_eq_some_iff.mp at'
    exact List.prefix_iff_getElem?.mp (groupsStay calls more) j short

def apiProgram : List (Call ℕ) :=
  [.serverGroup (bytes "api/") [.shared 1],.group 0 (bytes "//v1/") [.shared 2],.group 0 (bytes "/v2") [.shared 3]]

theorem apiUsers :
    let levels : List (Level ℕ) := [⟨bytes "api/",[.shared 1]⟩,⟨bytes "//v1/",[.shared 2]⟩]
    let before := run 0 apiProgram
    let after := run 0 (apiProgram ++ [.register 1 .get (bytes "/users/:id") [.shared 4]])
    let segs := levels.flatMap (fun level => splitPath level.mPrefix) ++ splitPath (bytes "/users/:id")
    ∃ fullPath,
      splitPath fullPath = segs ∧
      let chain := (levels.flatMap Level.middleware).map (·.instantiate fullPath) ++ [4]
      after.trees = Function.update before.trees .get
        (insertAt chain (upToWildcard segs) [] (before.trees .get)) ∧
      ((∀ route ∈ registered 0 apiProgram, route.1 = .get → shape (splitPath route.2.1) ≠ shape segs) →
        handlesAt (shape segs) (after.trees .get) = chain) ∧
      (∀ s, s ≠ shape segs → handlesAt s (after.trees .get) = handlesAt s (before.trees .get)) ∧
      ∀ (j : ℕ) (sibling : List (Level ℕ)), (lineages apiProgram)[j]? = some sibling →
        ∃ g, Composes sibling g ∧ ∀ more, (run 0 (apiProgram ++ more)).groups[j]? = some g :=
  nestedGroups apiProgram (i := 1) rfl (.register .get (bytes "/users/:id") [.shared 4])

end Programs
end Uco.RouteGroups
