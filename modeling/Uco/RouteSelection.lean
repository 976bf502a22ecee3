import Uco.PrefixTree

/-! Which route the search selects. Among the registered shapes that match the
path it is the first one when the segments are compared from the left: an exact
end before a wildcard, a literal before a parameter before a wildcard. -/
namespace Uco.RouteSelection
open PrefixTree

variable {HandleFunc : Type}

inductive Matches : List Elem → List Bytes → Prop where
  | exact : Matches [] []
  | literal {segment s parts} (rest : Matches s parts) : Matches (.literal segment :: s) (segment :: parts)
  | parameter {segment s parts} (rest : Matches s parts) : Matches (.parameter :: s) (segment :: parts)
  | wildcard (parts) : Matches [.wildcard] parts

inductive Before : List Elem → List Elem → Prop where
  | exactWildcard (s) : Before [] (.wildcard :: s)
  | literalParameter (segment s t) : Before (.literal segment :: s) (.parameter :: t)
  | literalWildcard (segment s t) : Before (.literal segment :: s) (.wildcard :: t)
  | parameterWildcard (s t) : Before (.parameter :: s) (.wildcard :: t)
  | same (e) {s t} (rest : Before s t) : Before (e :: s) (e :: t)

theorem beforeAsymm {s t : List Elem} (st : Before s t) : ¬ Before t s := by
  induction st with
  | exactWildcard | literalParameter | literalWildcard | parameterWildcard => nofun
  | same e rest ih =>
    rintro ⟨⟩
    exact ih (by assumption)

theorem matchesNil {s : List Elem} (fits : Matches s []) : s = [] ∨ s = [.wildcard] := by
  cases fits with
  | exact => exact .inl rfl
  | wildcard => exact .inr rfl

theorem matchesLiteral {a b : Bytes} {s : List Elem} {parts : List Bytes}
    (fits : Matches (.literal a :: s) (b :: parts)) : a = b ∧ Matches s parts := by
  cases fits with
  | literal rest => exact ⟨rfl, rest⟩

structure Wins (routes : List (Bytes × List HandleFunc)) (path : Bytes) (w : List Elem) : Prop where
  registered : ∃ route ∈ routes, shape (splitPath route.1) = w
  fits : Matches w (splitPath path)
  first : ∀ route ∈ routes, Matches (shape (splitPath route.1)) (splitPath path) →
    shape (splitPath route.1) = w ∨ Before w (shape (splitPath route.1))

theorem singleWins (route : Bytes × List HandleFunc) {path : Bytes}
    (fits : Matches (shape (splitPath route.1)) (splitPath path)) :
    Wins [route] path (shape (splitPath route.1)) where
  registered := ⟨route, List.mem_singleton.mpr rfl, rfl⟩
  fits := fits
  first := fun other registered _ => .inl (by rw [List.mem_singleton.mp registered])

theorem winsUnique {routes : List (Bytes × List HandleFunc)} {path : Bytes} {w other : List Elem}
    (hw : Wins routes path w) (ho : Wins routes path other) : other = w := by
  obtain ⟨r, hr, rfl⟩ := hw.registered
  obtain ⟨q, hq, rfl⟩ := ho.registered
  rcases hw.first q hq ho.fits with same | before
  · exact same
  · rcases ho.first r hr hw.fits with same | after
    · exact same.symm
    · exact absurd after (beforeAsymm before)

section Search

def Barren (node : TrieNode HandleFunc) (parts : List Bytes) : Prop :=
  ∀ s, Matches s parts → endedAt s node = false

/- The search of a node ends at the shape `w`, every earlier branch having failed. -/
inductive Finds : TrieNode HandleFunc → List Bytes → List Elem → Prop where
  | exact {node} (ended : node.isEnd = true) : Finds node [] []
  | literal {node segment child parts w} (known : node.children segment = some child)
      (below : Finds child parts w) : Finds node (segment :: parts) (.literal segment :: w)
  | parameter {node segment child parts w}
      (literals : ∀ c, node.children segment = some c → Barren c parts)
      (known : node.paramChild = some child) (below : Finds child parts w) :
      Finds node (segment :: parts) (.parameter :: w)
  | emptyRest {node wild} (open' : node.isEnd = false) (known : node.wildcardChild = some wild)
      (ended : wild.isEnd = true) : Finds node [] [.wildcard]
  | wildcard {node segment parts wild}
      (literals : ∀ c, node.children segment = some c → Barren c parts)
      (params : ∀ c, node.paramChild = some c → Barren c parts)
      (known : node.wildcardChild = some wild) (ended : wild.isEnd = true) :
      Finds node (segment :: parts) [.wildcard]

theorem endedBelow {e : Elem} {s : List Elem} {node : TrieNode HandleFunc} (ended : endedAt (e :: s) node = true) :
    ∃ child, node.child e = some child ∧ endedAt s child = true := by
  simpa [endedCons, Option.any_eq_true] using ended

theorem barrenNil (node : TrieNode HandleFunc) :
    Barren node [] ↔ node.isEnd = false ∧ ∀ wild, node.wildcardChild = some wild → wild.isEnd = false := by
  constructor
  · intro barren
    refine ⟨by simpa using barren [] .exact, fun wild known => ?_⟩
    simpa [endedCons, TrieNode.child, known] using barren [.wildcard] (.wildcard [])
  · rintro ⟨open', wildcard⟩ s fits
    rcases matchesNil fits with rfl | rfl
    · simpa using open'
    · rw [endedCons]
      cases known : node.child .wildcard with
      | none => rfl
      | some wild => exact wildcard wild known

theorem barrenCons (node : TrieNode HandleFunc) (segment : Bytes) (parts : List Bytes) :
    Barren node (segment :: parts) ↔
      (∀ c, node.children segment = some c → Barren c parts) ∧
      (∀ c, node.paramChild = some c → Barren c parts) ∧
      ∀ wild, node.wildcardChild = some wild → wild.isEnd = false := by
  constructor
  · intro barren
    refine ⟨fun c known s fits => ?_, fun c known s fits => ?_, fun wild known => ?_⟩
    · simpa [endedCons, TrieNode.child, known] using barren _ (.literal fits)
    · simpa [endedCons, TrieNode.child, known] using barren _ (.parameter fits)
    · simpa [endedCons, TrieNode.child, known] using barren [.wildcard] (.wildcard _)
  · rintro ⟨literals, params, wildcard⟩ s fits
    by_contra found
    rw [Bool.not_eq_false] at found
    cases fits with
    | literal rest =>
      obtain ⟨c, known, ended⟩ := endedBelow found
      exact absurd ended (by simp [literals c known _ rest])
    | parameter rest =>
      obtain ⟨c, known, ended⟩ := endedBelow found
      exact absurd ended (by simp [params c known _ rest])
    | wildcard =>
      obtain ⟨c, known, ended⟩ := endedBelow found
      exact absurd ended (by simpa using wildcard c known)

theorem findsFits {node : TrieNode HandleFunc} {parts : List Bytes} {w : List Elem} (found : Finds node parts w) :
    Matches w parts ∧ endedAt w node = true := by
  induction found with
  | exact ended => exact ⟨.exact, by simpa using ended⟩
  | literal known below ih => exact ⟨.literal ih.1, by simp [endedCons, TrieNode.child, known, ih.2]⟩
  | parameter literals known below ih => exact ⟨.parameter ih.1, by simp [endedCons, TrieNode.child, known, ih.2]⟩
  | emptyRest open' known ended | wildcard literals params known ended =>
    exact ⟨.wildcard _, by simpa [endedCons, TrieNode.child, known] using ended⟩

theorem findsFirst {node : TrieNode HandleFunc} {parts : List Bytes} {w s : List Elem} (found : Finds node parts w)
    (fits : Matches s parts) (ended : endedAt s node = true) : s = w ∨ Before w s := by
  induction found generalizing s with
  | exact =>
    rcases matchesNil fits with rfl | rfl
    · exact .inl rfl
    · exact .inr (.exactWildcard [])
  | literal known below ih =>
    cases fits with
    | literal rest =>
      obtain ⟨c, hc, ended⟩ := endedBelow ended
      cases known.symm.trans hc
      exact (ih rest ended).imp (congrArg _) (.same _)
    | parameter => exact .inr (.literalParameter _ _ _)
    | wildcard => exact .inr (.literalWildcard _ _ _)
  | parameter literals known below ih =>
    cases fits with
    | literal rest =>
      obtain ⟨c, hc, ended⟩ := endedBelow ended
      exact absurd ended (by simp [literals c hc _ rest])
    | parameter rest =>
      obtain ⟨c, hc, ended⟩ := endedBelow ended
      cases known.symm.trans hc
      exact (ih rest ended).imp (congrArg _) (.same _)
    | wildcard => exact .inr (.parameterWildcard _ _)
  | emptyRest open' known =>
    rcases matchesNil fits with rfl | rfl
    · exact absurd ended (by simp [open'])
    · exact .inl rfl
  | wildcard literals params known =>
    cases fits with
    | literal rest =>
      obtain ⟨c, hc, ended⟩ := endedBelow ended
      exact absurd ended (by simp [literals c hc _ rest])
    | parameter rest =>
      obtain ⟨c, hc, ended⟩ := endedBelow ended
      exact absurd ended (by simp [params c hc _ rest])
    | wildcard => exact .inl rfl

theorem barrenOrFinds (node : TrieNode HandleFunc) (parts : List Bytes) :
    Barren node parts ∨ ∃ w, Finds node parts w := by
  induction parts generalizing node with
  | nil =>
    by_cases ended : node.isEnd = true
    · exact .inr ⟨_, .exact ended⟩
    · rw [Bool.not_eq_true] at ended
      by_cases wildcard : ∃ wild, node.wildcardChild = some wild ∧ wild.isEnd = true
      · obtain ⟨wild, known, closed⟩ := wildcard
        exact .inr ⟨_, .emptyRest ended known closed⟩
      · exact .inl ((barrenNil node).mpr ⟨ended, by simpa using wildcard⟩)
  | cons segment parts ih =>
    by_cases literals : ∀ c, node.children segment = some c → Barren c parts
    · by_cases params : ∀ c, node.paramChild = some c → Barren c parts
      · by_cases wildcard : ∃ wild, node.wildcardChild = some wild ∧ wild.isEnd = true
        · obtain ⟨wild, known, closed⟩ := wildcard
          exact .inr ⟨_, .wildcard literals params known closed⟩
        · exact .inl ((barrenCons node segment parts).mpr ⟨literals, params, by simpa using wildcard⟩)
      · push Not at params
        obtain ⟨c, known, fertile⟩ := params
        obtain ⟨w, below⟩ := (ih c).resolve_left fertile
        exact .inr ⟨_, .parameter literals known below⟩
    · push Not at literals
      obtain ⟨c, known, fertile⟩ := literals
      obtain ⟨w, below⟩ := (ih c).resolve_left fertile
      exact .inr ⟨_, .literal known below⟩

def attempted : List Bytes → TrieNode HandleFunc → List Bytes
  | [], _ => []
  | segment :: parts, node =>
    (node.children segment).elim [] (attempted parts) ++
      node.paramChild.elim [] (fun child => child.paramName :: attempted parts child)

def attemptedLiteral (segment : Bytes) (parts : List Bytes) (node : TrieNode HandleFunc) : List Bytes :=
  (node.children segment).elim [] (attempted parts)

def attemptedParam (parts : List Bytes) (node : TrieNode HandleFunc) : List Bytes :=
  node.paramChild.elim [] (fun child => child.paramName :: attempted parts child)

theorem attemptedCons (segment : Bytes) (parts : List Bytes) (node : TrieNode HandleFunc) :
    attempted (segment :: parts) node = attemptedLiteral segment parts node ++ attemptedParam parts node := rfl

def clear (names : List Bytes) (params : Params) : Params :=
  fun name => if name ∈ names then none else params name

def bindAlong : List Elem → List Bytes → TrieNode HandleFunc → Params → Params
  | .literal segment :: w, _ :: parts, node, params =>
    (node.children segment).elim params (fun child => bindAlong w parts child params)
  | .parameter :: w, segment :: parts, node, params =>
    node.paramChild.elim params (fun child => bindAlong w parts child
      (setParam (clear (attemptedLiteral segment parts node) params) child.paramName segment))
  | .wildcard :: _, parts, node, params =>
    node.wildcardChild.elim params (fun wild =>
      setParam (clear (attempted parts node) params) wild.wildcardName (joinRest parts))
  | _, _, _, params => params

@[simp] theorem clearNone (params : Params) : clear [] params = params := by
  funext name
  simp [clear]

theorem clearAppend (a b : List Bytes) (params : Params) : clear (a ++ b) params = clear b (clear a params) := by
  funext name
  by_cases first : name ∈ a <;> simp [clear, first]

theorem eraseClearSet (names : List Bytes) (params : Params) (name value : Bytes) :
    eraseParam (clear names (setParam params name value)) name = clear (name :: names) params := by
  funext other
  by_cases same : other = name
  · simp [eraseParam, clear, same]
  · simp [eraseParam, setParam, clear, same]

theorem tryWildcardNone {node : TrieNode HandleFunc} (rest : Bytes) (result : RouteMatch HandleFunc)
    (closed : ∀ wild, node.wildcardChild = some wild → wild.isEnd = false) :
    tryWildcard rest node result = (false, result) := by
  unfold tryWildcard
  split
  · rename_i wild known
    rw [closed wild known, if_neg (by decide)]
  · rfl

theorem tryWildcardSome {node wild : TrieNode HandleFunc} (rest : Bytes) (result : RouteMatch HandleFunc)
    (known : node.wildcardChild = some wild) (ended : wild.isEnd = true) :
    tryWildcard rest node result = (true, takeWildcard rest wild result) := by
  simp only [tryWildcard, known, ended, if_true]

def Fails (node : TrieNode HandleFunc) (parts : List Bytes) : Prop :=
  ∀ result, dfsMatch parts node result = (false, {result with params := clear (attempted parts node) result.params})

theorem literalFails {node : TrieNode HandleFunc} {segment : Bytes} {parts : List Bytes}
    (fails : ∀ c, node.children segment = some c → Fails c parts) (result : RouteMatch HandleFunc) :
    tryLiteral (dfsMatch parts) segment node result =
      (false, {result with params := clear (attemptedLiteral segment parts node) result.params}) := by
  cases known : node.children segment with
  | none => simp [tryLiteral, attemptedLiteral, known]
  | some child => simpa [tryLiteral, attemptedLiteral, known] using fails child known result

theorem paramFails {node : TrieNode HandleFunc} {parts : List Bytes} (segment : Bytes)
    (fails : ∀ c, node.paramChild = some c → Fails c parts) (result : RouteMatch HandleFunc) :
    tryParam (dfsMatch parts) segment node result =
      (false, {result with params := clear (attemptedParam parts node) result.params}) := by
  cases known : node.paramChild with
  | none => simp [tryParam, attemptedParam, known]
  | some child => simp [tryParam, attemptedParam, known, fails child known _, eraseClearSet]

theorem dfsBarren {node : TrieNode HandleFunc} {parts : List Bytes} (barren : Barren node parts) :
    Fails node parts := by
  intro result
  induction parts generalizing node result with
  | nil =>
    obtain ⟨open', closed⟩ := (barrenNil node).mp barren
    rw [dfsMatch, if_neg (by simp [open']), tryWildcardNone [] result closed, attempted, clearNone]
  | cons segment parts ih =>
    obtain ⟨literals, params, closed⟩ := (barrenCons node segment parts).mp barren
    rw [dfsMatch, literalFails (fun c known result => ih (literals c known) result)]
    simp only [Bool.false_eq_true, if_false]
    rw [paramFails segment (fun c known result => ih (params c known) result)]
    simp only [Bool.false_eq_true, if_false]
    rw [tryWildcardNone _ _ closed, attemptedCons, clearAppend]

theorem dfsFinds {node : TrieNode HandleFunc} {parts : List Bytes} {w : List Elem} (found : Finds node parts w)
    (result : RouteMatch HandleFunc) :
    (dfsMatch parts node result).1 = true ∧ (dfsMatch parts node result).2.handles = handlesAt w node ∧
      (dfsMatch parts node result).2.params = bindAlong w parts node result.params ∧
      (dfsMatch parts node result).2.pattern = patternAt w node := by
  induction found generalizing result with
  | exact ended => simp [dfsMatch, ended, bindAlong, patternAt]
  | @literal node segment child parts w known below ih =>
    have same : tryLiteral (dfsMatch parts) segment node result = dfsMatch parts child result := by
      simp only [tryLiteral, known]
    rw [dfsMatch, same, if_pos (ih result).1]
    simpa [bindAlong, known, handlesCons, TrieNode.child, patternAt] using ih result
  | @parameter node segment child parts w literals known below ih =>
    rw [dfsMatch, literalFails (fun c known => dfsBarren (literals c known))]
    simp only [Bool.false_eq_true, if_false]
    obtain ⟨matched, handles, params, pattern⟩ := ih {result with
      params := setParam (clear (attemptedLiteral segment parts node) result.params) child.paramName segment}
    rw [tryParam, known]
    simp only [matched, if_true]
    exact ⟨trivial, by simpa [handlesCons, TrieNode.child, known] using handles,
      by simpa [bindAlong, known] using params, by simpa [patternAt, TrieNode.child, known] using pattern⟩
  | emptyRest open' known ended =>
    rw [dfsMatch, if_neg (by simp [open']), tryWildcardSome _ _ known ended]
    simp [takeWildcard, handlesCons, TrieNode.child, known, bindAlong, attempted, joinRest, patternAt]
  | @wildcard node segment parts wild literals params known ended =>
    rw [dfsMatch, literalFails (fun c known => dfsBarren (literals c known))]
    simp only [Bool.false_eq_true, if_false]
    rw [paramFails segment (fun c known => dfsBarren (params c known))]
    simp only [Bool.false_eq_true, if_false]
    rw [tryWildcardSome _ _ known ended]
    simp [takeWildcard, handlesCons, TrieNode.child, known, bindAlong, attemptedCons, clearAppend, patternAt]

end Search

theorem findsWins (routes : List (Bytes × List HandleFunc)) (path : Bytes) {w : List Elem}
    (found : Finds (build routes) (splitPath path) w) : Wins routes path w where
  registered := (endedBuild routes w).mp (findsFits found).2
  fits := (findsFits found).1
  first := fun route registered fits =>
    findsFirst found fits ((endedBuild routes _).mpr ⟨route, registered, rfl⟩)

theorem barrenNoRoute {routes : List (Bytes × List HandleFunc)} {path : Bytes}
    (barren : Barren (build routes) (splitPath path)) (route : Bytes × List HandleFunc) (registered : route ∈ routes) :
    ¬ Matches (shape (splitPath route.1)) (splitPath path) := by
  intro fits
  have ended := (endedBuild routes _).mpr ⟨route, registered, rfl⟩
  exact absurd ended (by simp [barren _ fits])

theorem winsFound {routes : List (Bytes × List HandleFunc)} {path : Bytes} {w : List Elem}
    (wins : Wins routes path w) : Finds (build routes) (splitPath path) w := by
  rcases barrenOrFinds (build routes) (splitPath path) with barren | ⟨found, ends⟩
  · obtain ⟨route, registered, rfl⟩ := wins.registered
    exact absurd wins.fits (barrenNoRoute barren route registered)
  · exact winsUnique wins (findsWins routes path ends) ▸ ends

theorem matchedIff (routes : List (Bytes × List HandleFunc)) (path : Bytes) :
    (matchRoute (build routes) path).1 = true ↔ ∃ w, Wins routes path w := by
  constructor
  · intro matched
    rcases barrenOrFinds (build routes) (splitPath path) with barren | ⟨w, found⟩
    · simp [matchRoute, dfsBarren barren RouteMatch.empty] at matched
    · exact ⟨w, findsWins routes path found⟩
  · rintro ⟨w, wins⟩
    exact (dfsFinds (winsFound wins) _).1

/- A match reports exactly that some route matches; it returns the handlers of
every route of the winning shape in the order of their registration. -/
theorem mostSpecificRoute (routes : List (Bytes × List HandleFunc)) (path : Bytes) :
    ((matchRoute (build routes) path).1 = true ↔
      ∃ route ∈ routes, Matches (shape (splitPath route.1)) (splitPath path)) ∧
    ((matchRoute (build routes) path).1 = true → ∃! w, Wins routes path w) ∧
    ∀ w, Wins routes path w → (matchRoute (build routes) path).2.handles =
      (routes.filter (fun route => shape (splitPath route.1) = w)).flatMap (·.2) := by
  refine ⟨⟨fun matched => ?_, ?_⟩, fun matched => ?_, fun w wins => ?_⟩
  · obtain ⟨w, wins⟩ := (matchedIff routes path).mp matched
    obtain ⟨route, registered, rfl⟩ := wins.registered
    exact ⟨route, registered, wins.fits⟩
  · rintro ⟨route, registered, fits⟩
    rcases barrenOrFinds (build routes) (splitPath path) with barren | ⟨w, found⟩
    · exact absurd fits (barrenNoRoute barren route registered)
    · exact (dfsFinds found _).1
  · obtain ⟨w, wins⟩ := (matchedIff routes path).mp matched
    exact ⟨w, wins, fun other wins' => winsUnique wins wins'⟩
  · rw [← handlesBuild]
    exact (dfsFinds (winsFound wins) _).2.1

example :
    let tree := build [(bytes "/a/*", [1]), (bytes "/:x/b", [2]), (bytes "a", [3]), (bytes "/:y/b/", [4])]
    (matchRoute tree (bytes "/a/")).2.handles = [3] ∧ (matchRoute tree (bytes "/c//b")).2.handles = [2, 4] ∧
      (matchRoute tree (bytes "/a/b")).2.handles = [1] := by
  decide

end Uco.RouteSelection
