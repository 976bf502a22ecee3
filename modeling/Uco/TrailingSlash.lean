import Uco.HttpRequest
import Uco.StaticPath

/-! HandleRequest up to the handlers: the redirect of a trailing slash, the cut of the target
at its first question mark and the two decodings. The redirect looks at the whole target. -/
namespace Uco.TrailingSlash
open FilePath Ustring
open HttpRequest (splitAtByte splitNone splitSome splitParts splitShorter)
open StaticPath (HttpMethod httpMethodStr2Enum isSafePath questionMark trailingSlash)

abbrev QueryMap := Std.ExtTreeMap Bytes Bytes

def ampersand : UInt8 := 38
def equalsSign : UInt8 := 61

section Model

def store (params : QueryMap) (kv : Bytes) : QueryMap :=
  match splitAtByte equalsSign kv with
  | some (key,value) => params.insert (urlDecode key true) (urlDecode value true)
  | none => params.insert (urlDecode kv true) []

/- while (std::getline(ss, kv, '&')): at the end of the stream nothing more is read. -/
set_option linter.unusedVariables false in
def getlines (params : QueryMap) (stream : Bytes) : QueryMap :=
  if stream = [] then params
  else
    match split : splitAtByte ampersand stream with
    | none => store params stream
    | some (kv,rest) => getlines (store params kv) rest
  termination_by stream.length
  decreasing_by exact splitShorter split

def splitPathAndQuery (url : Bytes) : Bytes × QueryMap :=
  match splitAtByte questionMark url with
  | none => (url,∅)
  | some (path,query) => (path,getlines ∅ query)

structure Server (H : Type) where
  fwdDict : HttpMethod × Bytes → Option Bytes
  findHandles : HttpMethod → Bytes → Option H

inductive Answer (H : Type) where
  | redirect (location : Bytes)
  | errorPage (code : ℕ)
  | handled (path : Bytes) (handles : H) (params : QueryMap)

variable {H : Type}

def dispatch (server : Server H) (method decoded : Bytes) (params : QueryMap) : Answer H :=
  if isSafePath decoded = false then .errorPage 400
  else
    let fwdPath := (server.fwdDict (httpMethodStr2Enum method,decoded)).getD []
    let path := if fwdPath = [] then decoded else fwdPath
    match server.findHandles (httpMethodStr2Enum method) path with
    | none => .errorPage 404
    | some handles => .handled path handles params

def handleRequest (server : Server H) (method path : Bytes) : Answer H :=
  if trailingSlash path then .redirect path.dropLast
  else
    let (rawPath,params) := splitPathAndQuery path
    dispatch server method (urlDecode rawPath false) params

end Model

section Purpose

def target (p : Bytes) : Option Bytes → Bytes
  | none => p
  | some q => p ++ questionMark :: q

def pieces (q : Bytes) : List Bytes :=
  let all := q.splitOn ampersand
  if all.getLast? = some [] then all.dropLast else all

def parameter (piece : Bytes) : Bytes × Bytes :=
  (urlDecode (piece.takeWhile (· ≠ equalsSign)) true,urlDecode ((piece.dropWhile (· ≠ equalsSign)).drop 1) true)

def Decoded (q : Bytes) (params : QueryMap) : Prop :=
  ∀ key, params[key]? = ((pieces q).map parameter).reverse.lookup key

variable {H : Type}

structure Normalises (server : Server H) (method p : Bytes) (q : Option Bytes) (answer : Answer H) : Prop where
  redirects : (∃ location, answer = .redirect location) ↔ trailingSlash p
  location : trailingSlash p → answer = .redirect (target p.dropLast q)
  dispatches : ¬trailingSlash p → ∃ params, answer = dispatch server method (urlDecode p false) params ∧
    Decoded (q.getD []) params

end Purpose

section Queries

theorem storeParameter (params : QueryMap) (kv : Bytes) :
    store params kv = params.insert (parameter kv).1 (parameter kv).2 := by
  rw [store, parameter]
  rcases split : splitAtByte equalsSign kv with _ | ⟨key,value⟩
  · have clean := splitNone.mp split
    have all : ∀ c ∈ kv, decide (c ≠ equalsSign) = true := fun c mem => by
      simp only [ne_eq, decide_not, Bool.not_eq_eq_eq_not, Bool.not_true, decide_eq_false_iff_not]
      rintro rfl
      exact clean mem
    rw [List.takeWhile_eq_self_iff.mpr all, List.dropWhile_eq_nil_iff.mpr all]
    rfl
  · obtain ⟨rfl,clean⟩ := splitParts split
    have all : ∀ c ∈ key, decide (c ≠ equalsSign) = true := fun c mem => by
      simp only [ne_eq, decide_not, Bool.not_eq_eq_eq_not, Bool.not_true, decide_eq_false_iff_not]
      rintro rfl
      exact clean mem
    rw [List.takeWhile_append_of_pos all, List.dropWhile_append_of_pos all]
    simp

theorem piecesNil : pieces [] = [] := rfl

theorem piecesLast {q : Bytes} (some' : q ≠ []) (clean : ampersand ∉ q) : pieces q = [q] := by
  simp [pieces, List.splitOn_eq_singleton clean, some']

theorem piecesCons {kv rest : Bytes} (clean : ampersand ∉ kv) :
    pieces (kv ++ ampersand :: rest) = kv :: pieces rest := by
  have split := List.splitOn_append_cons_self_of_not_mem clean rest
  obtain ⟨last,more,whole⟩ := List.exists_cons_of_ne_nil (List.splitOn_ne_nil ampersand rest)
  simp only [pieces, split, whole, List.getLast?_cons_cons, List.dropLast_cons_cons]
  split <;> rfl

def insertAll (params : QueryMap) (parameters : List (Bytes × Bytes)) : QueryMap :=
  parameters.foldl (fun m parameter => m.insert parameter.1 parameter.2) params

theorem getlinesAll (params : QueryMap) (stream : Bytes) :
    getlines params stream = insertAll params ((pieces stream).map parameter) := by
  induction params, stream using getlines.induct with
  | case1 params => simp [getlines, piecesNil, insertAll]
  | case2 params stream some' split =>
    rw [getlines, if_neg some', piecesLast some' (splitNone.mp split)]
    split
    · exact storeParameter params stream
    · rename_i found
      rw [split] at found
      cases found
  | case3 params stream some' kv rest split ih =>
    rw [getlines, if_neg some']
    split
    · rename_i found
      rw [split] at found
      cases found
    · rename_i found
      obtain ⟨rfl,rfl⟩ := Prod.mk.inj (Option.some.inj (split.symm.trans found))
      obtain ⟨rfl,clean⟩ := splitParts split
      rw [ih, piecesCons clean, storeParameter]
      rfl

theorem insertAllValue (params : QueryMap) (parameters : List (Bytes × Bytes)) (key : Bytes) :
    (insertAll params parameters)[key]? = (parameters.reverse.lookup key).or params[key]? := by
  induction parameters generalizing params with
  | nil => simp [insertAll]
  | cons first rest ih =>
    obtain ⟨name,value⟩ := first
    have step : insertAll params ((name,value) :: rest) = insertAll (params.insert name value) rest := rfl
    rw [step, ih, List.reverse_cons, List.lookup_append, Option.or_assoc, Std.ExtTreeMap.getElem?_insert]
    by_cases here : name = key
    · subst here
      simp
    · have other : (key == name) = false := by simpa using Ne.symm here
      simp [List.lookup_cons, here, other]

theorem decodedQuery (q : Bytes) : Decoded q (getlines ∅ q) := by
  intro key
  rw [getlinesAll, insertAllValue]
  simp

end Queries

section Targets
variable {H : Type} {server : Server H} {method p : Bytes}

theorem splitTarget (clean : questionMark ∉ p) (q : Option Bytes) :
    ∃ params, splitPathAndQuery (target p q) = (p,params) ∧ Decoded (q.getD []) params := by
  cases q with
  | none =>
    refine ⟨∅,by rw [splitPathAndQuery, target, splitNone.mpr clean],?_⟩
    intro key
    simp [piecesNil]
  | some query =>
    exact ⟨getlines ∅ query,by rw [splitPathAndQuery, target, splitSome clean],decodedQuery query⟩

theorem dispatchStays (decoded : Bytes) (params : QueryMap) (location : Bytes) :
    dispatch server method decoded params ≠ .redirect location := by
  unfold dispatch
  split
  · simp
  · simp only
    split <;> simp

theorem slashBehind (query : Bytes) : trailingSlash (target p (some query)) ↔ query.getLast? = some slash := by
  rw [trailingSlash, target, List.getLast?_append, List.getLast?_cons]
  cases last : query.getLast? with
  | none =>
    have other : questionMark ≠ slash := by decide
    simp [other]
  | some c =>
    have some' : query ≠ [] := by
      rintro rfl
      cases last
    have more := List.length_pos_iff.mpr some'
    simp only [Option.getD_some, Option.some_or, Option.some.injEq, and_iff_right_iff_imp, List.length_append,
      List.length_cons]
    omega

theorem queryNotPath {query : Bytes} (clean : questionMark ∉ p) (slashed : trailingSlash p)
    (behind : query.getLast? = some slash) : (target p (some query)).dropLast ≠ target p.dropLast (some query) := by
  intro same
  have some' : query ≠ [] := by
    rintro rfl
    cases behind
  have shorter : questionMark ∉ p.dropLast := fun mem => clean (List.dropLast_subset p mem)
  have cut : (target p (some query)).dropLast = p ++ questionMark :: query.dropLast := by
    rw [target, List.dropLast_append_of_ne_nil (List.cons_ne_nil _ _), List.dropLast_cons_of_ne_nil some']
  have first := splitSome clean query.dropLast
  rw [← cut, same, target, splitSome shorter] at first
  have paths := congrArg List.length (Prod.mk.inj (Option.some.inj first)).1
  have long := slashed.1
  rw [List.length_dropLast] at paths
  omega

/- The path and the query are told apart, except by the redirect. -/
theorem normalisesIff (server : Server H) (method : Bytes) (clean : questionMark ∉ p) (q : Option Bytes) :
    Normalises server method p q (handleRequest server method (target p q)) ↔
      ∀ query, q = some query → query.getLast? ≠ some slash ∧ ¬trailingSlash p := by
  obtain ⟨params,split,decoded⟩ := splitTarget clean q
  rw [handleRequest, split]
  cases q with
  | none =>
    refine iff_of_true ?_ nofun
    rw [target]
    by_cases slashed : trailingSlash p
    · rw [if_pos slashed]
      exact ⟨iff_of_true ⟨_,rfl⟩ slashed,fun _ => rfl,fun plain => absurd slashed plain⟩
    · rw [if_neg slashed]
      refine ⟨iff_of_false ?_ slashed,fun other => absurd other slashed,fun _ => ⟨params,rfl,decoded⟩⟩
      rintro ⟨location,redirected⟩
      exact dispatchStays _ _ _ redirected
  | some query =>
    simp only [Option.some.injEq, forall_eq']
    by_cases behind : query.getLast? = some slash
    · rw [if_pos ((slashBehind query).mpr behind)]
      refine iff_of_false (fun normalises => ?_) (fun both => both.1 behind)
      have slashed := normalises.redirects.mp ⟨_,rfl⟩
      exact queryNotPath clean slashed behind (Answer.redirect.inj (normalises.location slashed))
    · rw [if_neg (fun slashed => behind ((slashBehind query).mp slashed))]
      constructor
      · intro normalises
        refine ⟨behind,fun slashed => ?_⟩
        obtain ⟨location,redirected⟩ := normalises.redirects.mpr slashed
        exact dispatchStays _ _ _ redirected
      · rintro ⟨-,plain⟩
        refine ⟨iff_of_false ?_ plain,fun slashed => absurd slashed plain,fun _ => ⟨params,rfl,decoded⟩⟩
        rintro ⟨location,redirected⟩
        exact dispatchStays _ _ _ redirected

end Targets

section Requests

def onlyPath (path : Bytes) : Server Unit where
  fwdDict _ := none
  findHandles method requested := if method = .get ∧ requested = path then some () else none

theorem searchNormalised :
    Normalises (onlyPath (bytes "/search")) (bytes "GET") (bytes "/search") (some (bytes "q=a+b"))
      (handleRequest (onlyPath (bytes "/search")) (bytes "GET") (bytes "/search?q=a+b")) := by
  have plain : (bytes "q=a+b").getLast? ≠ some slash ∧ ¬trailingSlash (bytes "/search") := by decide
  exact (normalisesIff (onlyPath (bytes "/search")) (bytes "GET") (by decide) (some (bytes "q=a+b"))).mpr
    fun query same => Option.some.inj same ▸ plain

/- A slash at the end of the query redirects, one at the end of the path before a query does not. -/
theorem queryRedirects :
    ¬Normalises (onlyPath (bytes "/login")) (bytes "GET") (bytes "/login") (some (bytes "next=/"))
      (handleRequest (onlyPath (bytes "/login")) (bytes "GET") (bytes "/login?next=/")) ∧
    ¬Normalises (onlyPath (bytes "/docs")) (bytes "GET") (bytes "/docs/") (some (bytes "q=1"))
      (handleRequest (onlyPath (bytes "/docs")) (bytes "GET") (bytes "/docs/?q=1")) := by
  refine ⟨fun normalises => ?_,fun normalises => ?_⟩
  · have redirected : handleRequest (onlyPath (bytes "/login")) (bytes "GET") (bytes "/login?next=/") =
        .redirect (bytes "/login?next=") := by rw [handleRequest, if_pos (by decide)]; rfl
    exact absurd (normalises.redirects.mp ⟨_,redirected⟩) (by decide)
  · have slashed : trailingSlash (bytes "/docs/") := by decide
    obtain ⟨location,redirected⟩ := normalises.redirects.mpr slashed
    rw [handleRequest, if_neg (by decide)] at redirected
    exact dispatchStays _ _ _ redirected

end Requests
end Uco.TrailingSlash
