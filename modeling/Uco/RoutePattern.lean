import Uco.RouteGroups
import Uco.RouteParams
import Mathlib.Data.List.Chain

/-! The route pattern as a factory gets it and as a request sees it. The one is the joined path
as it is written; the other is put together by the tree, with one slash before each segment up
to a wildcard and with the names that the nodes got first. -/
namespace Uco.RoutePattern
open FilePath PrefixTree RouteSelection RouteParams RouteGroups
open StaticPath (HttpMethod skipSlashes skipSlashesHead)

section Tree
variable {H : Type}

def writtenText : Elem → Bytes → Bytes
  | .literal segment, _ => segment
  | .parameter, name => colon :: name
  | .wildcard, name => asterisk :: name

def canonical (parts : List Bytes) : Bytes :=
  if parts = [] then bytes "/" else parts.flatMap (slash :: ·)

def orSlash (pattern : Bytes) : Bytes := if pattern = [] then bytes "/" else pattern

theorem textName (e : Elem) (slot : Slot H) : slot.text e = writtenText e (nameOf e slot) := by
  cases e <;> rfl

theorem canonicalOr (parts : List Bytes) : orSlash (parts.flatMap (slash :: ·)) = canonical parts := by
  cases parts <;> rfl

theorem canonicalSome (parts : List Bytes) : canonical parts ≠ [] := by
  cases parts with
  | nil => exact List.cons_ne_nil slash []
  | cons part parts => simp [canonical]

theorem nameGrown (handles : List H) (parts : List Bytes) (pattern : Bytes) (e : Elem) (node : TrieNode H) :
    nameOf e (insertAt handles parts pattern node).slot = nameOf e node.slot := by
  cases parts with
  | nil => cases e <;> rfl
  | cons segment parts => rw [insertCons, slotSetChild]

theorem patternInsert (handles : List H) (parts : List Bytes) (pattern : Bytes) (node : TrieNode H) :
    let grown := insertAt handles parts pattern node
    patternAt (shape parts) grown = orSlash (pattern ++
      (List.zipWith writtenText (shape parts) (namesAlong (shape parts) grown)).flatMap (slash :: ·)) := by
  generalize same : shape parts = w
  induction w generalizing parts pattern node with
  | nil =>
    cases parts with
    | nil => simp [insertAt, finish, patternAt, orSlash]
    | cons segment parts => simp [shapeCons] at same
  | cons e w ih =>
    cases parts with
    | nil => simp [shape] at same
    | cons segment parts =>
      rw [shapeCons, List.cons.injEq] at same
      obtain ⟨rfl,same⟩ := same
      simp only [insertCons, patternAt, namesAlong, childSetChild, Option.elim_some, nameGrown, textName,
        List.zipWith_cons_cons, List.flatMap_cons]
      rw [ih _ _ _ same]
      simp

theorem freshPattern (segment : Bytes) (s : List Elem) : patternAt s (freshNode segment : TrieNode H) = [] := by
  cases s with
  | nil => cases kind : elemOf segment <;> simp [patternAt, freshNode, kind, TrieNode.new]
  | cons e s => simp [patternAt]

theorem patternOther (handles : List H) (parts : List Bytes) (pattern : Bytes) (node : TrieNode H) {s : List Elem}
    (other : s ≠ shape parts) : patternAt s (insertAt handles parts pattern node) = patternAt s node := by
  induction s generalizing parts pattern node with
  | nil =>
    cases parts with
    | nil => exact absurd rfl other
    | cons segment parts =>
      rw [insertCons]
      cases elemOf segment <;> rfl
  | cons e s ih =>
    cases parts with
    | nil => cases e <;> rfl
    | cons segment parts =>
      rw [insertCons, patternAt, patternAt]
      by_cases same : e = elemOf segment
      · subst same
        rw [childSetChild, Option.elim_some, ih _ _ _ (fun below => other (by rw [shapeCons, below]))]
        cases known : node.child (elemOf segment) with
        | none => simp [TrieNode.next, known, freshPattern]
        | some child => simp [TrieNode.next, known]
      · rw [childSetOther same]

end Tree

section Names
variable {H : Type}

theorem registeredNameSome {routes : List (Bytes × List H)} {s : List Elem}
    (there : ∃ route ∈ routes, s <+: shape (splitPath route.1)) :
    ∃ name, registeredName routes s = some name := by
  obtain ⟨route,listed,along⟩ := there
  rw [registeredName]
  cases found : routes.find? (fun route => s <+: shape (splitPath route.1)) with
  | none => exact absurd along (by simpa using List.find?_eq_none.mp found route listed)
  | some first => exact ⟨_,rfl⟩

theorem registeredNameAppend (routes more : List (Bytes × List H)) (s : List Elem) :
    registeredName (routes ++ more) s = (registeredName routes s).or (registeredName more s) := by
  rw [registeredName, List.find?_append]
  cases found : routes.find? (fun route => s <+: shape (splitPath route.1)) with
  | none => simp [registeredName, found]
  | some first => simp [registeredName, found]

theorem firstNamesStay {routes : List (Bytes × List H)} (more : List (Bytes × List H)) {before w : List Elem}
    (there : ∃ route ∈ routes, before ++ w <+: shape (splitPath route.1)) :
    firstNames (routes ++ more) before w = firstNames routes before w := by
  induction w generalizing before with
  | nil => rfl
  | cons e w ih =>
    obtain ⟨route,listed,along⟩ := there
    rw [List.append_cons] at along
    obtain ⟨name,known⟩ := registeredNameSome ⟨route,listed,(List.prefix_append _ _).trans along⟩
    rw [firstNames, firstNames, registeredNameAppend, known, Option.some_or, ih ⟨route,listed,along⟩]

theorem patternBuild (routes : List (Bytes × List H)) {s : List Elem}
    (there : ∃ route ∈ routes, shape (splitPath route.1) = s) :
    patternAt s (build routes) = canonical (List.zipWith writtenText s (firstNames routes [] s)) := by
  induction routes using List.reverseRecOn with
  | nil => simp at there
  | append_singleton routes route ih =>
    by_cases last : shape (splitPath route.1) = s
    · subst last
      have ended := (endedBuild (routes ++ [route]) _).mpr there
      rw [← namesAlongBuild (routes ++ [route]) (fun s => rfl) ended, buildAppend, PrefixTree.insert, patternInsert,
        List.nil_append, canonicalOr]
    · have earlier : ∃ route ∈ routes, shape (splitPath route.1) = s := by
        obtain ⟨other,listed,same⟩ := there
        rcases List.mem_append.mp listed with listed | listed
        · exact ⟨other,listed,same⟩
        · exact absurd (List.mem_singleton.mp listed ▸ same) last
      obtain ⟨other,listed,same⟩ := earlier
      rw [buildAppend, PrefixTree.insert, patternOther _ _ _ _ (Ne.symm last), ih ⟨other,listed,same⟩,
        firstNamesStay [route] ⟨other,listed,by rw [List.nil_append, same]⟩]

theorem patternFound {routes : List (Bytes × List H)} {path : Bytes} {w : List Elem} (wins : Wins routes path w) :
    (matchRoute (build routes) path).2.pattern =
      canonical (List.zipWith writtenText w (firstNames routes [] w)) := by
  rw [matchRoute, (dfsFinds (winsFound wins) _).2.2.2, patternBuild routes wins.registered]

theorem textOwn (segment : Bytes) : writtenText (elemOf segment) (segment.drop 1) = segment := by
  unfold elemOf
  split
  · rename_i parameter
    rw [writtenText, List.drop_one, List.cons_head?_tail parameter]
  · split
    · rename_i wildcard
      rw [writtenText, List.drop_one, List.cons_head?_tail wildcard]
    · rfl

theorem cutCons (segment : Bytes) (parts : List Bytes) :
    upToWildcard (segment :: parts) = segment :: upToWildcard (afterElem segment parts) := by
  by_cases ends : elemOf segment = .wildcard <;> simp [upToWildcard, afterElem, ends]

theorem segmentsInduct {motive : List Bytes → Prop} (nil : motive [])
    (cons : ∀ segment parts, motive (afterElem segment parts) → motive (segment :: parts)) (segs : List Bytes) :
    motive segs := by
  induction segs with
  | nil => exact nil
  | cons segment parts ih =>
    refine cons segment parts ?_
    by_cases ends : elemOf segment = .wildcard
    · rwa [afterElem, if_pos ends]
    · rwa [afterElem, if_neg ends]

theorem positionCons {segment : Bytes} {parts : List Bytes} {P : List Elem → Elem → Prop} :
    (∀ u e, u ++ [e] <+: shape (segment :: parts) → P u e) ↔
      P [] (elemOf segment) ∧
      ∀ u e, u ++ [e] <+: shape (afterElem segment parts) → P (elemOf segment :: u) e := by
  rw [shapeCons]
  constructor
  · intro all
    exact ⟨all [] _ (by simp),fun u e along => all _ e (by simpa using along)⟩
  · rintro ⟨first,below⟩ u e along
    cases u with
    | nil =>
      obtain ⟨rfl,_⟩ := List.cons_prefix_cons.mp along
      exact first
    | cons a u =>
      rw [List.cons_append, List.cons_prefix_cons] at along
      obtain ⟨rfl,along⟩ := along
      exact below u e along

theorem afterKept {segment : Bytes} {parts : List Bytes} {u : List Elem} {e : Elem}
    (along : u ++ [e] <+: shape (afterElem segment parts)) : afterElem segment parts = parts := by
  by_cases ends : elemOf segment = .wildcard
  · simp [afterElem, ends, shape] at along
  · exact if_neg ends

theorem textsIff (routes : List (Bytes × List H)) (before : List Elem) (segs : List Bytes) :
    List.zipWith writtenText (shape segs) (firstNames routes before (shape segs)) = upToWildcard segs ↔
      ∀ u e, u ++ [e] <+: shape segs →
        writtenText e ((registeredName routes (before ++ (u ++ [e]))).getD []) = segs.getD u.length [] := by
  induction segs using segmentsInduct generalizing before with
  | nil => simp [shape, upToWildcard]
  | cons segment parts ih =>
    rw [positionCons, shapeCons, cutCons, firstNames, List.zipWith_cons_cons, List.cons.injEq, ih]
    refine and_congr (by rfl) (forall₃_congr fun u e along => ?_)
    rw [afterKept along]
    simp

theorem ownText (segs : List Bytes) : ∀ u e, u ++ [e] <+: shape segs →
    writtenText e ((segs.map (·.drop 1)).getD u.length []) = segs.getD u.length [] := by
  induction segs using segmentsInduct with
  | nil => simp [shape]
  | cons segment parts ih =>
    rw [positionCons]
    refine ⟨textOwn segment,fun u e along => ?_⟩
    have below := ih u e along
    rw [afterKept along] at below
    simpa using below

theorem textsWritten (earlier : List (Bytes × List H)) (route : Bytes × List H) (later : List (Bytes × List H)) :
    let segs := splitPath route.1
    List.zipWith writtenText (shape segs) (firstNames (earlier ++ route :: later) [] (shape segs)) =
        upToWildcard segs ↔
      ∀ u e, u ++ [e] <+: shape segs → ∀ name, registeredName earlier (u ++ [e]) = some name →
        writtenText e name = segs.getD u.length [] := by
  intro segs
  rw [textsIff]
  refine forall₃_congr fun u e along => ?_
  have own : registeredName (route :: later) (u ++ [e]) = some ((segs.map (·.drop 1)).getD u.length []) := by
    simp [registeredName, show u ++ [e] <+: shape (splitPath route.1) from along, writtenNames, segs]
  rw [List.nil_append, registeredNameAppend, own]
  cases registeredName earlier (u ++ [e]) with
  | none => simpa using ownText segs u e along
  | some name => simp

end Names

section Slashes

def Single (text : Bytes) : Prop := text.IsChain fun a b => a = slash → b ≠ slash

theorem singleAppend (x y : Bytes) :
    Single (x ++ y) ↔ Single x ∧ Single y ∧ (x.getLast? = some slash → y.head? ≠ some slash) := by
  rw [Single, List.isChain_append]
  refine and_congr Iff.rfl (and_congr Iff.rfl ?_)
  constructor
  · intro apart ends begins
    exact apart _ ends _ begins rfl rfl
  · rintro apart a ends b begins rfl rfl
    exact apart ends begins

theorem singleSlash (x : Bytes) : Single (slash :: x) ↔ x.head? ≠ some slash ∧ Single x := by
  have split := singleAppend [slash] x
  have one : Single [slash] := .singleton slash
  simpa [one, and_comm] using split

theorem singlePlain {x : Bytes} (plain : slash ∉ x) : Single x := by
  induction x with
  | nil => exact .nil
  | cons c x ih =>
    simp only [List.mem_cons, not_or] at plain
    exact List.isChain_cons.mpr ⟨fun _ _ isSlash => absurd isSlash.symm plain.1,ih plain.2⟩

theorem lastPlain {x : Bytes} (plain : slash ∉ x) : x.getLast? ≠ some slash :=
  fun ends => plain (List.mem_of_getLast? ends)

theorem headPlain {x : Bytes} (plain : slash ∉ x) : x.head? ≠ some slash :=
  fun begins => plain (List.mem_of_head? begins)

theorem segmentsPlain {current path : Bytes} (plain : slash ∉ current) :
    ∀ segment ∈ segmentsFrom current path, segment ≠ [] ∧ slash ∉ segment := by
  induction path generalizing current with
  | nil => by_cases empty : current = [] <;> simp [segmentsFrom, empty, plain]
  | cons c rest ih =>
    by_cases isSlash : c = slash
    · have later := @ih [] (by simp)
      by_cases empty : current = [] <;> simp [segmentsFrom, isSlash, empty, plain] <;> exact later
    · have longer := @ih (current ++ [c]) (by simp [plain, Ne.symm isSlash])
      simpa [segmentsFrom, isSlash] using longer

theorem flatSegments {current : Bytes} (plain : slash ∉ current) (path : Bytes) :
    (segmentsFrom current path).flatMap (slash :: ·) = slash :: (current ++ path) ↔
      Single (slash :: (current ++ path)) ∧ (slash :: (current ++ path)).getLast? ≠ some slash := by
  induction path generalizing current with
  | nil =>
    by_cases empty : current = []
    · simp [segmentsFrom, empty]
    · have last : (slash :: current).getLast? = current.getLast? := List.getLast?_cons_of_ne_nil empty
      simp [segmentsFrom, empty, singleSlash, headPlain plain, singlePlain plain, last, lastPlain plain]
  | cons c rest ih =>
    by_cases isSlash : c = slash
    · subst isSlash
      by_cases empty : current = []
      · subst empty
        have doubled : ¬ Single (slash :: slash :: rest) := by simp [singleSlash]
        refine iff_of_false (fun same => ?_) (fun neat => doubled neat.1)
        cases parts : segmentsFrom [] rest with
        | nil => simp [segmentsFrom, parts] at same
        | cons segment parts' =>
          obtain ⟨some',clean⟩ := segmentsPlain plain segment (parts ▸ List.mem_cons_self)
          obtain ⟨c,more,rfl⟩ := List.exists_cons_of_ne_nil some'
          simp only [segmentsFrom, parts, if_true, List.flatMap_cons, List.cons_append, List.nil_append,
            List.cons.injEq, true_and] at same
          exact clean (same.1 ▸ List.mem_cons_self)
      · have below := @ih [] (by simp)
        have begins : (current ++ slash :: rest).head? ≠ some slash := by
          rw [List.head?_append_of_ne_nil _ empty]
          exact headPlain plain
        have ends : (slash :: (current ++ slash :: rest)).getLast? = (slash :: rest).getLast? :=
          List.getLast?_append_cons (slash :: current) slash rest
        have apart : Single (current ++ slash :: rest) ↔ Single (slash :: rest) := by
          rw [singleAppend]
          simp [singlePlain plain, lastPlain plain]
        rw [singleSlash, and_iff_right begins, apart, ends]
        simpa [segmentsFrom, empty] using below
    · have longer := @ih (current ++ [c]) (by simp [plain, Ne.symm isSlash])
      simpa [segmentsFrom, isSlash] using longer

def Neat (text : Bytes) : Prop := Single text ∧ (text = bytes "/" ∨ text.getLast? ≠ some slash)

theorem canonicalIff {text : Bytes} (absolute : text.head? = some slash) :
    text = canonical (splitPath text) ↔ Neat text := by
  obtain ⟨path,rfl⟩ : ∃ path, text = slash :: path := List.head?_eq_some_iff.mp absolute
  have written := @flatSegments [] (by simp) path
  have root : slash :: path = bytes "/" ↔ path = [] := by
    show slash :: path = [slash] ↔ _
    simp
  rw [Neat, root, splitPath, segmentsSlash, canonical, segments]
  by_cases none' : segmentsFrom [] path = []
  · rw [if_pos none', root]
    rw [none'] at written
    constructor
    · rintro rfl
      exact ⟨.singleton slash,.inl rfl⟩
    · rintro ⟨single,rfl | ends⟩
      · rfl
      · exact absurd (written.mpr ⟨single,ends⟩) (by simp)
  · have some' : path ≠ [] := fun empty => none' (by rw [empty]; rfl)
    rw [if_neg none', eq_comm]
    simpa [some'] using written

end Slashes

section Joined

theorem popMore {base : Bytes} (long : 1 < base.length) (trailing : base.getLast? = some slash) :
    popSlashes base = popSlashes base.dropLast := by
  rw [popSlashes, if_pos ⟨long,trailing⟩]

theorem popDone {base : Bytes} (done : base.getLast? ≠ some slash) : popSlashes base = base := by
  rw [popSlashes, if_neg (fun more => done more.2)]

@[simp] theorem popRoot : popSlashes [slash] = [slash] := by
  rw [popSlashes, if_neg (by simp)]

theorem popHead (base : Bytes) : (popSlashes base).head? = base.head? := by
  induction base using popSlashes.induct with
  | case1 base more ih => rw [popMore more.1 more.2, ih, List.head?_dropLast, if_pos more.1]
  | case2 base stop => rw [popSlashes, if_neg stop]

theorem popLast (base : Bytes) : (popSlashes base).length ≤ 1 ∨ (popSlashes base).getLast? ≠ some slash := by
  induction base using popSlashes.induct with
  | case1 base more ih => rwa [popMore more.1 more.2]
  | case2 base stop =>
    rw [popSlashes, if_neg stop]
    by_cases long : 1 < base.length
    · exact .inr fun ends => stop ⟨long,ends⟩
    · exact .inl (by omega)

theorem popAppend (front : Bytes) {rest : Bytes} (more : rest ≠ []) (plain : rest.head? ≠ some slash) :
    popSlashes (front ++ rest) = front ++ popSlashes rest := by
  induction rest using popSlashes.induct with
  | case1 rest trailing ih =>
    have shorter : rest.dropLast ≠ [] := by
      rw [← List.length_pos_iff, List.length_dropLast]
      omega
    have long : 1 < (front ++ rest).length := by
      rw [List.length_append]
      omega
    have ends : (front ++ rest).getLast? = some slash := by
      rw [List.getLast?_append_of_ne_nil _ more, trailing.2]
    have deeper := ih shorter (by rwa [List.head?_dropLast, if_pos trailing.1])
    rw [popMore long ends, List.dropLast_append_of_ne_nil more, deeper, popMore trailing.1 trailing.2]
  | case2 rest stop =>
    have done : rest.getLast? ≠ some slash := by
      intro ends
      by_cases long : 1 < rest.length
      · exact stop ⟨long,ends⟩
      · obtain ⟨c,rfl⟩ : ∃ c, rest = [c] := List.length_eq_one_iff.mp (by
          have := List.length_pos_iff.mpr more
          omega)
        exact plain ends
    rw [popDone done, popDone (by rwa [List.getLast?_append_of_ne_nil _ more])]

theorem rootedHead (mPrefix : Bytes) : rooted mPrefix = [] ∨ (rooted mPrefix).head? = some slash := by
  unfold rooted
  split
  · exact .inr rfl
  · rename_i kept
    by_cases empty : mPrefix = []
    · exact .inl empty
    · exact .inr (by_contra fun starts => kept ⟨empty,starts⟩)

theorem rootedSpaced (mPrefix : Bytes) : Single (popSlashes (rooted mPrefix)) ↔ Single (popSlashes mPrefix) := by
  unfold rooted
  split
  · rename_i bare
    have popped : popSlashes (slash :: mPrefix) = slash :: popSlashes mPrefix := popAppend [slash] bare.1 bare.2
    rw [popped, singleSlash, popHead, and_iff_right bare.2]
  · rfl

theorem joinBase (mPrefix path : Bytes) : ∃ base,
    (base = [] ∨ base.head? = some slash ∧ base.getLast? ≠ some slash) ∧
    (Single base ↔ Single (popSlashes mPrefix)) ∧
    joinPath mPrefix path =
      if skipSlashes path = [] then if base = [] then bytes "/" else base else base ++ slash :: skipSlashes path := by
  have starts : popSlashes (rooted mPrefix) = [] ∨ (popSlashes (rooted mPrefix)).head? = some slash := by
    rw [popHead]
    exact (rootedHead mPrefix).imp_left fun empty => by rw [empty, popDone (by simp)]
  have ends := popLast (rooted mPrefix)
  have spaced := rootedSpaced mPrefix
  rw [joinPath]
  generalize popSlashes (rooted mPrefix) = base at starts ends spaced ⊢
  have root : bytes "/" = [slash] := rfl
  by_cases bare : base = [] ∨ base = [slash]
  · refine ⟨[],.inl rfl,?_,?_⟩
    · rw [← spaced]
      rcases bare with rfl | rfl
      · rfl
      · exact iff_of_true .nil (.singleton slash)
    · rw [root]
      rcases bare with rfl | rfl <;> simp
  · have some' : base ≠ [] := fun empty => bare (.inl empty)
    have begins := starts.resolve_left some'
    have last : base.getLast? ≠ some slash := ends.resolve_left fun short => by
      obtain ⟨rest,rfl⟩ := List.head?_eq_some_iff.mp begins
      have none' : rest = [] := List.length_eq_zero_iff.mp (by simpa using short)
      exact bare (.inr (by rw [none']))
    refine ⟨base,.inr ⟨begins,last⟩,spaced,?_⟩
    simp only [root, if_neg bare, if_neg some']

theorem singleJoin {base rest : Bytes} (ends : base.getLast? ≠ some slash) (plain : rest.head? ≠ some slash) :
    Single (base ++ slash :: rest) ↔ Single base ∧ Single rest := by
  rw [singleAppend, singleSlash, and_iff_right plain]
  exact and_congr_right fun _ => and_iff_left fun last => absurd last ends

theorem joinSpaced (mPrefix path : Bytes) : Single (popSlashes (joinPath mPrefix path)) ↔
    Single (popSlashes mPrefix) ∧ Single (popSlashes (skipSlashes path)) := by
  obtain ⟨base,absolute,spaced,joined⟩ := joinBase mPrefix path
  have ends : base.getLast? ≠ some slash := by
    rcases absolute with rfl | ⟨_,ends⟩
    · simp
    · exact ends
  have plain := skipSlashesHead path
  rw [joined, ← spaced]
  by_cases none' : skipSlashes path = []
  · have empty : Single (popSlashes []) := by
      rw [popDone (by simp)]
      exact .nil
    rw [if_pos none', none', and_iff_left empty]
    split
    · rename_i bare
      subst bare
      exact iff_of_true (popRoot.symm ▸ .singleton slash) .nil
    · rw [popDone ends]
  · have popped := popAppend (base ++ [slash]) none' plain
    rw [List.append_assoc, List.append_assoc] at popped
    rw [if_neg none', ← List.singleton_append, popped, List.singleton_append,
      singleJoin ends (popHead (skipSlashes path) ▸ plain)]

theorem joinNeat (mPrefix path : Bytes) : joinPath mPrefix path = canonical (splitPath (joinPath mPrefix path)) ↔
    Single (popSlashes mPrefix) ∧ Single (skipSlashes path) ∧ (skipSlashes path).getLast? ≠ some slash := by
  obtain ⟨base,absolute,spaced,joined⟩ := joinBase mPrefix path
  have plain := skipSlashesHead path
  rw [← spaced]
  by_cases none' : skipSlashes path = []
  · rw [if_pos none'] at joined
    rw [joined, none', and_iff_left (show Single [] ∧ _ from ⟨.nil,by simp⟩)]
    rcases absolute with rfl | ⟨begins,ends⟩
    · exact iff_of_true rfl .nil
    · have some' : base ≠ [] := fun empty => by simp [empty] at begins
      rw [if_neg some', canonicalIff begins, Neat, and_iff_left (.inr ends)]
  · rw [if_neg none'] at joined
    have begins : (base ++ slash :: skipSlashes path).head? = some slash := by
      rcases absolute with rfl | ⟨begins,_⟩
      · rfl
      · rw [List.head?_append, begins, Option.some_or]
    have ends : base.getLast? ≠ some slash := by
      rcases absolute with rfl | ⟨_,ends⟩
      · simp
      · exact ends
    have last : (base ++ slash :: skipSlashes path).getLast? = (skipSlashes path).getLast? := by
      rw [List.getLast?_append_cons, List.getLast?_cons_of_ne_nil none']
    have more : base ++ slash :: skipSlashes path ≠ bytes "/" := by
      intro root
      have length := congrArg List.length root
      have positive := List.length_pos_iff.mpr none'
      rw [List.length_append, List.length_cons, show (bytes "/").length = 1 from rfl] at length
      omega
    rw [joined, canonicalIff begins, Neat, singleJoin ends plain, last, or_iff_right more, and_assoc]

end Joined
section Reading
variable {H : Type}

theorem firstNamesLength (routes : List (Bytes × List H)) (before w : List Elem) :
    (firstNames routes before w).length = w.length := by
  induction w generalizing before with
  | nil => rfl
  | cons e w ih => rw [firstNames, List.length_cons, List.length_cons, ih]

theorem cutPrefix (segs : List Bytes) : upToWildcard segs <+: segs := by
  induction segs with
  | nil => exact List.prefix_rfl
  | cons segment parts ih =>
    rw [upToWildcard]
    split
    · exact ⟨parts,rfl⟩
    · exact List.cons_prefix_cons.mpr ⟨rfl,ih⟩

theorem cutLength (segs : List Bytes) : (shape segs).length = (upToWildcard segs).length := by
  induction segs using segmentsInduct with
  | nil => rfl
  | cons segment parts ih => rw [shapeCons, cutCons, List.length_cons, List.length_cons, ih]

theorem literalSegment {segs : List Bytes} {segment : Bytes} (inside : .literal segment ∈ shape segs) :
    segment ∈ segs := by
  induction segs with
  | nil => simp [shape] at inside
  | cons first parts ih =>
    rw [shape, List.mem_cons] at inside
    rcases inside with here | below
    · rw [elemLiteral here.symm]
      exact List.mem_cons_self
    · split at below
      · simp at below
      · exact List.mem_cons_of_mem _ (ih below)

def Segment (text : Bytes) : Prop := text ≠ [] ∧ slash ∉ text

theorem splitSegment {path segment : Bytes} (inside : segment ∈ splitPath path) : Segment segment :=
  segmentsPlain (by simp) segment inside

theorem firstNamesPlain (routes : List (Bytes × List H)) (before w : List Elem) :
    ∀ name ∈ firstNames routes before w, slash ∉ name := by
  induction w generalizing before with
  | nil => simp [firstNames]
  | cons e w ih =>
    rw [firstNames, List.forall_mem_cons]
    refine ⟨?_,ih _⟩
    cases known : registeredName routes (before ++ [e]) with
    | none => simp
    | some name =>
      obtain ⟨route,_,rfl⟩ := Option.map_eq_some_iff.mp known
      rw [Option.getD_some, List.getD_eq_getElem?_getD]
      cases there : (writtenNames route.1)[(before ++ [e]).length-1]? with
      | none => simp
      | some name =>
        obtain ⟨segment,inside,rfl⟩ := List.mem_map.mp (List.mem_of_getElem? there)
        exact fun within => (splitSegment inside).2 (List.mem_of_mem_drop within)

theorem textSegments (routes : List (Bytes × List H)) (path : Bytes) :
    let w := shape (splitPath path)
    ∀ text ∈ List.zipWith writtenText w (firstNames routes [] w), Segment text := by
  intro w text inside
  rw [← List.map_uncurry_zip_eq_zipWith] at inside
  obtain ⟨⟨e,name⟩,paired,rfl⟩ := List.mem_map.mp inside
  obtain ⟨along,named⟩ := List.of_mem_zip paired
  have plain := firstNamesPlain routes [] w name named
  cases e with
  | literal segment => exact splitSegment (literalSegment along)
  | parameter => exact ⟨List.cons_ne_nil _ _,List.not_mem_cons_of_ne_of_not_mem (by decide) plain⟩
  | wildcard => exact ⟨List.cons_ne_nil _ _,List.not_mem_cons_of_ne_of_not_mem (by decide) plain⟩

theorem splitCanonical {parts : List Bytes} (clean : ∀ part ∈ parts, Segment part) :
    splitPath (canonical parts) = parts := by
  have flat : segments (parts.flatMap (slash :: ·)) = parts := by
    induction parts with
    | nil => rfl
    | cons part parts ih =>
      obtain ⟨here,rest⟩ := List.forall_mem_cons.mp clean
      have stop : parts.flatMap (slash :: ·) = [] ∨ ∃ tail, parts.flatMap (slash :: ·) = slash :: tail := by
        cases parts with
        | nil => exact .inl rfl
        | cons next parts => exact .inr ⟨_,rfl⟩
      rw [List.flatMap_cons, List.cons_append, segmentsSlash, segmentsRun _ _ here.1 here.2 stop, ih rest]
  rw [splitPath, canonical]
  split
  · rename_i none'
    rw [none']
    rfl
  · exact flat

theorem ownPatternIff (earlier : List (Bytes × List H)) (route : Bytes × List H) (later : List (Bytes × List H))
    {request : Bytes} (wins : Wins (earlier ++ route :: later) request (shape (splitPath route.1))) :
    let segs := splitPath route.1
    (matchRoute (build (earlier ++ route :: later)) request).2.pattern = route.1 ↔
      route.1 = canonical segs ∧ upToWildcard segs = segs ∧
      ∀ u e, u ++ [e] <+: shape segs → ∀ name, registeredName earlier (u ++ [e]) = some name →
        writtenText e name = segs.getD u.length [] := by
  intro segs
  have found := patternFound wins
  have clean := textSegments (earlier ++ route :: later) route.1
  have written := textsWritten earlier route later
  have long := firstNamesLength (earlier ++ route :: later) [] (shape segs)
  simp only [segs] at *
  rw [found, ← written]
  generalize firstNames (earlier ++ route :: later) [] (shape (splitPath route.1)) = names at *
  have length : (List.zipWith writtenText (shape (splitPath route.1)) names).length =
      (upToWildcard (splitPath route.1)).length := by
    rw [List.length_zipWith, long, Nat.min_self, cutLength]
  constructor
  · intro same
    have split := splitCanonical clean
    rw [same] at split
    have whole : upToWildcard (splitPath route.1) = splitPath route.1 :=
      (cutPrefix _).eq_of_length (by rw [← length, ← split])
    rw [← split] at same
    exact ⟨same.symm,whole,by rw [whole, ← split]⟩
  · rintro ⟨canonical',whole,texts⟩
    rw [texts, whole, ← canonical']

end Reading

section Factories
variable {H : Type} {defaultHandle : H}

def SpacedPrefixes (levels : List (Level H)) : Prop :=
  (∀ level ∈ levels.head?, Single (popSlashes level.mPrefix)) ∧
  ∀ level ∈ levels.tail, Single (popSlashes (skipSlashes level.mPrefix))

def Spaced (levels : List (Level H)) (g : RouteGroup H) : Prop :=
  levels ≠ [] ∧ (Single (popSlashes g.mPrefix) ↔ SpacedPrefixes levels)

theorem spacedInherited : Inherited (Spaced : List (Level H) → RouteGroup H → Prop) where
  first mPrefix middleware := ⟨by simp,by simp [SpacedPrefixes]⟩
  deeper {levels g} related mPrefix middleware := by
    obtain ⟨some',spaced⟩ := related
    obtain ⟨outer,inner,rfl⟩ := List.exists_cons_of_ne_nil some'
    refine ⟨by simp,?_⟩
    rw [RouteGroup.group, joinSpaced, spaced]
    simp [SpacedPrefixes, or_imp, forall_and, and_assoc]

def segmentsOf (levels : List (Level H)) (path : Bytes) : List Bytes :=
  levels.flatMap (fun level => splitPath level.mPrefix) ++ splitPath path

structure WrittenCanonically (earlier : List (Bytes × List H)) (levels : List (Level H)) (path : Bytes) : Prop where
  prefixes : SpacedPrefixes levels
  spaced : Single (skipSlashes path)
  ends : (skipSlashes path).getLast? ≠ some slash
  last : upToWildcard (segmentsOf levels path) = segmentsOf levels path
  names : ∀ u e, u ++ [e] <+: shape (segmentsOf levels path) → ∀ name,
    registeredName earlier (u ++ [e]) = some name → writtenText e name = (segmentsOf levels path).getD u.length []

theorem askedIff {middleware : List (Middleware H)} {routePattern pattern : Bytes} :
    pattern ∈ middleware.filterMap (·.asked routePattern) ↔
      pattern = routePattern ∧ ∃ factory, .perRoute factory ∈ middleware := by
  rw [List.mem_filterMap]
  constructor
  · rintro ⟨m,inside,asked⟩
    cases m with
    | shared handle => simp [Middleware.asked] at asked
    | perRoute factory => exact ⟨(Option.some.inj asked).symm,factory,inside⟩
  · rintro ⟨rfl,factory,inside⟩
    exact ⟨_,inside,rfl⟩

theorem askedRegisters {groups : List (RouteGroup H)} {i : ℕ} {g : RouteGroup H} (known : groups[i]? = some g)
    {call : Call H} {method : HttpMethod} {path : Bytes} {handles : List H}
    (registers : Registers defaultHandle i call method path handles) : call.asked groups =
      g.mMiddleware.filterMap (·.asked (joinPath g.mPrefix path)) ++ call.handlers.filterMap (·.asked []) := by
  cases registers with
  | register | static => simp [Call.asked, known]

theorem routesSplit (calls more : List (Call H)) {i : ℕ} {g : RouteGroup H}
    (known : (run defaultHandle calls).groups[i]? = some g) {call : Call H} {method : HttpMethod} {path : Bytes}
    {handles : List H} (registers : Registers defaultHandle i call method path handles) :
    ∃ later, ofMethod method (registered defaultHandle (calls ++ call :: more)) =
      ofMethod method (registered defaultHandle calls) ++
        (joinPath g.mPrefix path,g.instantiateMiddleware (joinPath g.mPrefix path) ++ handles) :: later := by
  have added : call.route defaultHandle (run defaultHandle calls).groups =
      some (method,joinPath g.mPrefix path,g.instantiateMiddleware (joinPath g.mPrefix path) ++ handles) := by
    cases registers with
    | register | static => simp [Call.route, known]
  rw [List.append_cons, registered, routesAppend, ← registered, registeredAppend, added]
  simp [ofMethod]

/- The factories of a route, those of its groups' chain, get the pattern that every request to the
route sees exactly when the prefixes and the path are written canonically, no segment follows a
wildcard and the names are the ones first registered; a factory given as a handler never does. -/
theorem factoriesIff (calls more : List (Call H)) {i : ℕ} {levels : List (Level H)}
    (nested : (lineages calls)[i]? = some levels) {call : Call H} {method : HttpMethod} {path : Bytes}
    {handles : List H} (registers : Registers defaultHandle i call method path handles) {request : Bytes}
    (dispatched : Wins (ofMethod method (registered defaultHandle (calls ++ call :: more))) request
      (shape (segmentsOf levels path))) :
    (∀ pattern ∈ call.asked (run defaultHandle calls).groups,
      (matchRoute ((run defaultHandle (calls ++ call :: more)).trees method) request).2.pattern = pattern) ↔
    (∀ factory, .perRoute factory ∉ call.handlers) ∧
      ((∃ factory, .perRoute factory ∈ levels.flatMap Level.middleware) →
        WrittenCanonically (ofMethod method (registered defaultHandle calls)) levels path) := by
  have composed : List.Forall₂ Composes (lineages calls) (run defaultHandle calls).groups :=
    inheritedRun composesInherited calls
  have spaced : List.Forall₂ Spaced (lineages calls) (run defaultHandle calls).groups :=
    inheritedRun spacedInherited calls
  obtain ⟨g,known,composes⟩ := relatedKnown composed nested
  obtain ⟨same,known',_,prefixes⟩ := relatedKnown spaced nested
  obtain rfl : same = g := Option.some.inj (known'.symm.trans known)
  obtain ⟨later,routes⟩ := routesSplit calls more known registers
  have split : splitPath (joinPath same.mPrefix path) = segmentsOf levels path := by
    rw [joinSegments, composes.segments, segmentsOf]
  rw [← split] at dispatched
  rw [routes] at dispatched
  have own := ownPatternIff _ _ later dispatched
  have some' : (matchRoute ((run defaultHandle (calls ++ call :: more)).trees method) request).2.pattern ≠ [] := by
    rw [treesRun, routes, patternFound dispatched]
    exact canonicalSome _
  dsimp only at own
  rw [← routes, ← treesRun, joinNeat, split, prefixes] at own
  have reported :
      (matchRoute ((run defaultHandle (calls ++ call :: more)).trees method) request).2.pattern =
        joinPath same.mPrefix path ↔
      WrittenCanonically (ofMethod method (registered defaultHandle calls)) levels path :=
    own.trans ⟨fun ⟨⟨p,s,e⟩,l,n⟩ => ⟨p,s,e,l,n⟩,fun ⟨p,s,e,l,n⟩ => ⟨⟨p,s,e⟩,l,n⟩⟩
  rw [askedRegisters known registers, List.forall_mem_append, and_comm, composes.middleware]
  refine and_congr ?_ ?_
  · constructor
    · intro all factory inside
      exact some' (all [] (askedIff.mpr ⟨rfl,factory,inside⟩))
    · intro none' pattern asked
      obtain ⟨_,factory,inside⟩ := askedIff.mp asked
      exact absurd inside (none' factory)
  · rw [← reported]
    constructor
    · intro all asks
      exact all _ (askedIff.mpr ⟨rfl,asks⟩)
    · intro same' pattern asked
      obtain ⟨rfl,asks⟩ := askedIff.mp asked
      exact same' asks

def limitedProgram : List (Call ℕ) := [.serverGroup (bytes "/api") [.perRoute List.length]]
def limitedLevels : List (Level ℕ) := [⟨bytes "/api",[.perRoute List.length]⟩]

theorem limitedWins (path request : Bytes)
    (fits : Matches (shape (segmentsOf limitedLevels path)) (splitPath request)) :
    Wins (ofMethod .get (registered 0 (limitedProgram ++ [Call.register 0 .get path [.shared 1]]))) request
      (shape (segmentsOf limitedLevels path)) := by
  have routes : ofMethod .get (registered 0 (limitedProgram ++ [Call.register 0 .get path [.shared 1]])) =
      [(joinPath (bytes "/api") path,[(joinPath (bytes "/api") path).length,1])] := rfl
  have split : splitPath (joinPath (bytes "/api") path) = segmentsOf limitedLevels path := by
    rw [joinSegments, segmentsOf]
    simp [limitedLevels]
  rw [← split] at fits ⊢
  rw [routes]
  exact singleWins _ fits

theorem usersFit (path : Bytes)
    (same : shape (segmentsOf limitedLevels path) = [.literal (bytes "api"),.literal (bytes "users")]) :
    Matches (shape (segmentsOf limitedLevels path)) (splitPath (bytes "/api/users")) := by
  have request : splitPath (bytes "/api/users") = [bytes "api",bytes "users"] := by decide
  rw [same, request]
  exact .literal (.literal .exact)

theorem usersPattern :
    (∀ pattern ∈ (Call.register 0 .get (bytes "/users") [.shared 1]).asked (run 0 limitedProgram).groups,
      (matchRoute ((run 0 (limitedProgram ++ [.register 0 .get (bytes "/users") [.shared 1]])).trees .get)
        (bytes "/api/users")).2.pattern = pattern) ↔
    (∀ factory, .perRoute factory ∉ (Call.register 0 .get (bytes "/users") [.shared 1]).handlers) ∧
      ((∃ factory, .perRoute factory ∈ limitedLevels.flatMap Level.middleware) →
        WrittenCanonically (ofMethod .get (registered 0 limitedProgram)) limitedLevels (bytes "/users")) :=
  factoriesIff limitedProgram [] (i := 0) rfl (.register .get (bytes "/users") [.shared 1])
    (limitedWins (bytes "/users") (bytes "/api/users") (usersFit (bytes "/users") (by decide)))

/- The factory of /users/ gets the slash at the end; its requests see /api/users. -/
theorem slashPattern :
    ¬ ∀ (calls more : List (Call ℕ)) (i : ℕ) (levels : List (Level ℕ)), (lineages calls)[i]? = some levels →
      ∀ (call : Call ℕ) (method : HttpMethod) (path : Bytes) (handles : List ℕ),
        Registers 0 i call method path handles → ∀ request,
        Wins (ofMethod method (registered 0 (calls ++ call :: more))) request (shape (segmentsOf levels path)) →
        ∀ pattern ∈ call.asked (run 0 calls).groups,
          (matchRoute ((run 0 (calls ++ call :: more)).trees method) request).2.pattern = pattern := by
  intro always
  have wins := limitedWins (bytes "/users/") (bytes "/api/users") (usersFit (bytes "/users/") (by decide))
  have seen := always limitedProgram [] 0 limitedLevels rfl _ _ _ _
    (.register .get (bytes "/users/") [.shared 1]) _ wins (bytes "/api/users/") (by decide +kernel)
  exact absurd seen (by decide +kernel)

end Factories
end Uco.RoutePattern
