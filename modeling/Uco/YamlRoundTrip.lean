import Mathlib.Data.List.Induction
import Mathlib.Data.List.Nodup
import Uco.YamlConfig

/-! What the YAML reader reads back: trees of mappings, the texts that they may be written
as, and Load on such a text. -/
namespace Uco.YamlConfig

section Scalars
variable {target : UInt8} {rest s : Bytes}

def escapeByte (c : UInt8) : Bytes :=
  if c = backslash then [backslash,backslash]
  else if c = dquote then [backslash,dquote]
  else if c = lf then [backslash,110]
  else if c = cr then [backslash,114]
  else if c = tab then [backslash,116]
  else [c]

def quoted (s : Bytes) : Bytes := dquote :: s.flatMap escapeByte ++ [dquote]

theorem escapeShape (c : UInt8) :
    escapeByte c = [backslash,if c = lf then 110 else if c = cr then 114 else if c = tab then 116 else c] ∧
      (c = backslash ∨ c = dquote ∨ c = lf ∨ c = cr ∨ c = tab) ∨
    escapeByte c = [c] ∧ c ≠ backslash ∧ c ≠ dquote ∧ c ≠ lf ∧ c ≠ tab := by
  unfold escapeByte
  by_cases hb : c = backslash
  · subst hb; exact .inl (by decide)
  by_cases hq : c = dquote
  · subst hq; exact .inl (by decide)
  by_cases hl : c = lf
  · subst hl; exact .inl (by decide)
  by_cases hc : c = cr
  · subst hc; exact .inl (by decide)
  by_cases ht : c = tab
  · subst ht; exact .inl (by decide)
  exact .inr (by simp [hb, hq, hl, hc, ht])

theorem insideEscape (c : UInt8) (rest : Bytes) : findFrom target dquote false (escapeByte c ++ rest) =
    (findFrom target dquote false rest).map (· + (escapeByte c).length) := by
  have notZero : dquote ≠ 0 := by decide
  rcases escapeShape c with ⟨same,_⟩ | ⟨same,notBack,notDouble,_⟩
  · simp [same, findFrom, Option.map_map, Function.comp_def]
  · have other : dquote ≠ c := notDouble.symm
    by_cases single : c = squote
    · subst single
      have different : dquote ≠ squote := by decide
      have plain : squote ≠ backslash := by decide
      simp [same, findFrom, notZero, different, plain]
    · simp [same, findFrom, notBack, notDouble, single, notZero]

theorem insideQuotes (s rest : Bytes) : findFrom target dquote false (s.flatMap escapeByte ++ rest) =
    (findFrom target dquote false rest).map (· + (s.flatMap escapeByte).length) := by
  induction s with
  | nil => simp
  | cons c s ih =>
    rw [List.flatMap_cons, List.append_assoc, insideEscape, ih, Option.map_map]
    congr 1
    funext n
    simp only [Function.comp_apply, List.length_append]
    omega

theorem clearQuoted (s : Bytes) : Clear target (quoted s) := by
  intro rest
  have plain : dquote ≠ backslash := by decide
  have notZero : dquote ≠ 0 := by decide
  have zero : (0 : UInt8) ≠ dquote := by decide
  have opens : findFrom target 0 false (dquote :: (s.flatMap escapeByte ++ dquote :: rest)) =
      (findFrom target dquote false (s.flatMap escapeByte ++ dquote :: rest)).map (· + 1) := by
    simp [findFrom, zero]
  have closes : findFrom target dquote false (dquote :: rest) = (findFrom target 0 false rest).map (· + 1) := by
    simp [findFrom, plain, notZero]
  have split : quoted s ++ rest = dquote :: (s.flatMap escapeByte ++ dquote :: rest) := by simp [quoted]
  rw [split, opens, insideQuotes, closes, Option.map_map, Option.map_map]
  congr 1
  funext n
  simp only [Function.comp_apply, quoted, List.cons_append, List.length_cons, List.length_append, List.length_nil]
  omega

theorem unescapeEscape (c : UInt8) (rest : Bytes) :
    unescape false (escapeByte c ++ rest) = (unescape false rest).map (c :: ·) := by
  rcases escapeShape c with ⟨same,special⟩ | ⟨same,notBack,_⟩
  · have back : escapedByte (if c = lf then 110 else if c = cr then 114 else if c = tab then 116 else c) = c := by
      rcases special with rfl | rfl | rfl | rfl | rfl <;> decide
    simp [same, unescape, back]
  · simp [same, unescape, notBack]

theorem unescapeQuoted (s : Bytes) : unescape false (s.flatMap escapeByte) = some s := by
  induction s with
  | nil => rfl
  | cons c s ih => rw [List.flatMap_cons, unescapeEscape, ih]; rfl

theorem unquoteQuoted (before after : Bytes) (blank : ∀ c ∈ before, isSpace c) (blank' : ∀ c ∈ after, isSpace c)
    (s : Bytes) : unquote (before ++ quoted s ++ after) = some s := by
  have edge : isSpace dquote = false := by decide
  have last : (quoted s).getLast? = some dquote := List.getLast?_concat ..
  have tight : trim (before ++ quoted s ++ after) = quoted s :=
    trimTight _ _ _ blank blank' (by simp [quoted, edge]) (by simp [last, edge])
  have other : dquote ≠ squote := by decide
  have long : ¬(quoted s).length < 2 := by simp [quoted]
  have inner : ((quoted s).drop 1).dropLast = s.flatMap escapeByte := by
    simp only [quoted, List.cons_append, List.drop_one, List.tail_cons]
    exact List.dropLast_concat
  have head : (quoted s).head? = some dquote := rfl
  unfold unquote
  simp only [tight, last, inner, long, head]
  simp [other, unescapeQuoted]

end Scalars

inductive Mapping where
  | nil
  | text (key value : Bytes) (rest : Mapping)
  | list (key : Bytes) (items : List Bytes) (rest : Mapping)
  | mapping (key : Bytes) (children rest : Mapping)
  deriving Repr

section Dialect

def keyByte (c : UInt8) : Bool := (97 ≤ c ∧ c ≤ 122) ∨ (65 ≤ c ∧ c ≤ 90) ∨ (48 ≤ c ∧ c ≤ 57) ∨ c = 95 ∨ c = 45

def ValidKey (key : Bytes) : Prop := key ≠ [] ∧ ∀ c ∈ key, keyByte c

def Mapping.keys : Mapping → List Bytes
  | .nil => []
  | .text key _ rest | .list key _ rest | .mapping key _ rest => key :: rest.keys

def Mapping.Valid : Mapping → Prop
  | .nil => True
  | .text key _ rest | .list key _ rest => ValidKey key ∧ key ∉ rest.keys ∧ rest.Valid
  | .mapping key children rest => ValidKey key ∧ key ∉ rest.keys ∧ children.Valid ∧ rest.Valid

def spaces (n : ℕ) : Bytes := List.replicate n space

/- A comment from its hash on, or nothing; `allowed` are the bytes that it may hold. -/
def Comment (allowed : UInt8 → Prop) (c : Bytes) : Prop := c = [] ∨ ∃ words, c = hash :: words ∧ ∀ b ∈ words, allowed b

def Tail (allowed : UInt8 → Prop) (tail : Bytes) : Prop := ∃ n c, tail = spaces n ++ c ∧ Comment allowed c

def Filler (allowed : UInt8 → Prop) (line : Bytes) : Prop :=
  ∃ white c, line = white ++ c ∧ (∀ b ∈ white, isSpace b ∧ allowed b) ∧ Comment allowed c

inductive ItemsText : List Bytes → Bytes → Prop where
  | none (n : ℕ) : ItemsText [] (spaces n)
  | last (s : Bytes) (a b : ℕ) : ItemsText [s] (spaces a ++ quoted s ++ spaces b)
  | cons {s t : Bytes} {rest : List Bytes} {text : Bytes} (a b : ℕ) (further : ItemsText (t :: rest) text) :
      ItemsText (s :: t :: rest) (spaces a ++ quoted s ++ spaces b ++ comma :: text)

def entry (d : ℕ) (key : Bytes) (a : ℕ) (after tail : Bytes) : Bytes :=
  spaces d ++ (key ++ spaces a ++ colon :: after) ++ tail

inductive Renders (allowed : UInt8 → Prop) : ℕ → Mapping → List Bytes → Prop where
  | nil {d} : Renders allowed d .nil []
  | filler {d m line lines} (blank : Filler allowed line) (further : Renders allowed d m lines) :
      Renders allowed d m (line :: lines)
  | text {d key value rest tail lines} (a b : ℕ) (ends : Tail allowed tail) (further : Renders allowed d rest lines) :
      Renders allowed d (.text key value rest) (entry d key a (spaces b ++ quoted value) tail :: lines)
  | list {d key items body rest tail lines} (a b : ℕ) (written : ItemsText items body) (ends : Tail allowed tail)
      (further : Renders allowed d rest lines) :
      Renders allowed d (.list key items rest) (entry d key a (spaces b ++ (opening :: body ++ [closing])) tail :: lines)
  | mapping {d e key children rest tail inner lines} (a : ℕ) (ends : Tail allowed tail) (deeper : d < e)
      (below : Renders allowed e children inner) (further : Renders allowed d rest lines) :
      Renders allowed d (.mapping key children rest) (entry d key a [] tail :: (inner ++ lines))

def Written (lines : List Bytes) (text : Bytes) : Prop :=
  let whole := lines.flatMap (· ++ [lf])
  text = whole ∨ text ++ [lf] = whole

inductive Leaf where
  | text (value : Bytes)
  | list (items : List Bytes)
  deriving DecidableEq, Repr

def Mapping.leaves (above : List Bytes) : Mapping → List (List Bytes × Leaf)
  | .nil => []
  | .text key value rest => (above ++ [key],.text value) :: rest.leaves above
  | .list key items rest => (above ++ [key],.list items) :: rest.leaves above
  | .mapping key children rest => children.leaves (above ++ [key]) ++ rest.leaves above

def dotted (path : List Bytes) : Bytes := [dot].intercalate path

end Dialect

section Lines
variable {allowed : UInt8 → Prop} {key after tail : Bytes} {d a : ℕ}

theorem spacesBlank (n : ℕ) : ∀ c ∈ spaces n, isSpace c := by
  intro c mem
  rw [List.eq_of_mem_replicate mem]
  decide

theorem clearSpaces {target : UInt8} (n : ℕ) (other : target ≠ space) : Clear target (spaces n) := by
  refine clearPlain (fun c mem => ?_)
  rw [List.eq_of_mem_replicate mem]
  exact ⟨by decide,by decide,other.symm⟩

theorem keyPlain {c : UInt8} (valid : keyByte c) :
    c ≠ squote ∧ c ≠ dquote ∧ c ≠ hash ∧ c ≠ colon ∧ c ≠ dot ∧ c ≠ tab ∧ c ≠ lf ∧ c ≠ space ∧ isSpace c = false := by
  have solid : isSpace c = false := by
    simp only [keyByte, decide_eq_true_eq, UInt8.le_iff_toNat_le, ← UInt8.toNat_inj] at valid
    simp only [isSpace, decide_eq_false_iff_not, UInt8.le_iff_toNat_le, ← UInt8.toNat_inj]
    simp only [UInt8.reduceToNat] at *
    omega
  refine ⟨?_,?_,?_,?_,?_,?_,?_,?_,solid⟩ <;> rintro rfl <;> revert valid <;> decide

theorem clearKey {target : UInt8} (valid : ValidKey key) (other : target = hash ∨ target = colon) :
    Clear target key := by
  refine clearPlain (fun c mem => ?_)
  obtain ⟨single,double,notHash,notColon,_⟩ := keyPlain (valid.2 c mem)
  rcases other with rfl | rfl
  · exact ⟨single,double,notHash⟩
  · exact ⟨single,double,notColon⟩

theorem clearBlank {white : Bytes} (blank : ∀ c ∈ white, isSpace c) : Clear hash white := by
  refine clearPlain (fun c mem => ?_)
  have here := blank c mem
  refine ⟨?_,?_,?_⟩ <;> rintro rfl <;> revert here <;> decide

theorem stripTail (content : Bytes) {white comment : Bytes} (clear : Clear hash content) (blank : ∀ c ∈ white, isSpace c)
    (ends : Comment allowed comment) (head : ∀ c ∈ content.head?, isSpace c = false)
    (last : ∀ c ∈ content.getLast?, isSpace c = false) : stripComment (content ++ (white ++ comment)) = content := by
  have clear' : Clear hash (content ++ white) := clearAppend clear (clearBlank blank)
  have tight : trim (content ++ white) = content := by
    simpa using trimTight [] content white (by simp) blank head last
  unfold stripComment
  rcases ends with rfl | ⟨words,rfl,_⟩
  · rw [List.append_nil, findNone clear']
    exact tight
  · rw [← List.append_assoc, findHit clear' (by decide) (by decide)]
    change trim (((content ++ white) ++ hash :: words).take (content ++ white).length) = content
    rw [List.take_left, tight]

theorem stripClear {content : Bytes} (clear : Clear hash content) : stripComment content = trim content := by
  rw [stripComment, findNone clear]

theorem tailAllowed (ends : Tail allowed tail) {c : UInt8} (mem : c ∈ tail) : c = space ∨ c = hash ∨ allowed c := by
  obtain ⟨n,comment,rfl,rfl | ⟨words,rfl,plain⟩⟩ := ends
  · rw [List.append_nil] at mem
    exact .inl (List.eq_of_mem_replicate mem)
  · rcases List.mem_append.mp mem with mem | mem
    · exact .inl (List.eq_of_mem_replicate mem)
    · rcases List.mem_cons.mp mem with rfl | mem
      · exact .inr (.inl rfl)
      · exact .inr (.inr (plain c mem))

theorem entryMem {c : UInt8} (mem : c ∈ entry d key a after tail) :
    c = space ∨ c ∈ key ∨ c = colon ∨ c ∈ after ∨ c ∈ tail := by
  simp only [entry, List.mem_append, List.mem_cons] at mem
  rcases mem with ((mem | ((mem | mem) | mem)) | mem)
  · exact .inl (List.eq_of_mem_replicate mem)
  · exact .inr (.inl mem)
  · exact .inl (List.eq_of_mem_replicate mem)
  · exact .inr (.inr (mem.imp id .inl))
  · exact .inr (.inr (.inr (.inr mem)))

theorem loadEntry {loader : Loader} (valid : ValidKey key) (clear : Clear hash after) (noTab : tab ∉ after)
    (edge : ∀ c ∈ (colon :: after).getLast?, isSpace c = false) (ends : Tail allowed tail)
    (tabless : ¬allowed tab) : loadLine loader (entry d key a after tail) =
      let sections := loader.sections.dropWhile (fun s => d ≤ s.1)
      if trim after = [] then some ⟨(d,key) :: sections,loader.values⟩
      else (unquote (trim after)).bind fun value =>
        (emplace loader.values (fullKey sections key) value).bind fun values => some ⟨sections,values⟩ := by
  obtain ⟨first,others,split⟩ := List.exists_cons_of_ne_nil valid.1
  have solid : ∀ c ∈ key, isSpace c = false := fun c mem => (keyPlain (valid.2 c mem)).2.2.2.2.2.2.2.2
  have plainLine : tab ∉ entry d key a after tail := by
    intro mem
    rcases entryMem mem with same | mem | same | mem | mem
    · exact absurd same (by decide)
    · exact (keyPlain (valid.2 _ mem)).2.2.2.2.2.1 rfl
    · exact absurd same (by decide)
    · exact noTab mem
    · rcases tailAllowed ends mem with same | same | held
      · exact absurd same (by decide)
      · exact absurd same (by decide)
      · exact tabless held
  have indent : (entry d key a after tail).takeWhile (· = space) = spaces d := by
    have notSpace := (keyPlain (valid.2 first (split ▸ List.mem_cons_self))).2.2.2.2.2.2.2.1
    unfold entry
    rw [List.append_assoc, List.takeWhile_append_of_pos (by
      intro c mem
      simpa using List.eq_of_mem_replicate mem), split]
    simp [notSpace]
  have dropped : (entry d key a after tail).drop (spaces d).length = key ++ spaces a ++ colon :: after ++ tail := by
    rw [entry, List.append_assoc, List.drop_left]
  have clearKeys : ∀ target, target = hash ∨ target = colon → Clear target (key ++ spaces a) := by
    intro target other
    refine clearAppend (clearKey valid other) (clearSpaces a ?_)
    rcases other with rfl | rfl <;> decide
  have clearAll : Clear hash (key ++ spaces a ++ colon :: after) :=
    clearAppend (clearKeys hash (.inl rfl)) (clearAppend (clearByte (by decide) (by decide) (by decide)) clear)
  have content : stripComment (key ++ spaces a ++ colon :: after ++ tail) = key ++ spaces a ++ colon :: after := by
    obtain ⟨n,comment,rfl,ends⟩ := ends
    refine stripTail _ clearAll (spacesBlank n) ends ?_ ?_
    · intro c mem
      rw [split] at mem
      have same : first = c := by simpa using mem
      exact solid c (by rw [split, same]; exact List.mem_cons_self)
    · have same : (key ++ spaces a ++ colon :: after).getLast? = (colon :: after).getLast? :=
        List.getLast?_append_of_ne_nil _ (by simp)
      rw [same]
      exact edge
  have found : findUnquoted (key ++ spaces a ++ colon :: after) colon = some (key ++ spaces a).length :=
    findHit (clearKeys colon (.inr rfl)) (by decide) (by decide)
  have named : trim (key ++ spaces a) = key := by
    have tight := trimTight [] key _ (by simp) (spacesBlank a)
      (fun c mem => solid c (List.mem_of_mem_head? mem)) (fun c mem => solid c (List.mem_of_mem_getLast? mem))
    rwa [List.nil_append] at tight
  have nonempty : key ++ spaces a ++ colon :: after ≠ [] := by simp
  have beyond : (key ++ spaces a ++ colon :: after).drop ((key ++ spaces a).length + 1) = after := by
    rw [← List.drop_drop, List.drop_left]
    rfl
  unfold loadLine
  rw [if_neg plainLine]
  simp only [indent, dropped, content, if_neg nonempty, found, List.take_left, named, if_neg valid.1, beyond,
    stripClear clear]
  simp only [spaces, List.length_replicate]
  rfl

theorem loadFiller {loader : Loader} {line : Bytes} (blank : Filler allowed line) (tabless : ¬allowed tab) :
    loadLine loader line = some loader := by
  obtain ⟨white,comment,rfl,white',ends⟩ := blank
  have plainLine : tab ∉ white ++ comment := by
    intro mem
    rcases List.mem_append.mp mem with mem | mem
    · exact tabless (white' tab mem).2
    · rcases ends with rfl | ⟨words,rfl,plain⟩
      · simp at mem
      · rcases List.mem_cons.mp mem with same | mem
        · exact absurd same (by decide)
        · exact tabless (plain tab mem)
  have short : ((white ++ comment).takeWhile (· = space)).length ≤ white.length := by
    have comment' : comment.takeWhile (· = space) = [] := by
      rcases ends with rfl | ⟨words,rfl,_⟩
      · rfl
      · exact List.takeWhile_cons_of_neg (by decide)
    rw [List.takeWhile_append]
    split
    · simp [comment']
    · exact (List.takeWhile_sublist _).length_le
  have strips : stripComment ((white ++ comment).drop ((white ++ comment).takeWhile (· = space)).length) = [] := by
    rw [List.drop_append_of_le_length short]
    exact stripTail [] clearNil (fun c mem => (white' c (List.mem_of_mem_drop mem)).1) ends (by simp)
      (by simp)
  simp [loadLine, plainLine, strips]

end Lines

section Lists
variable {items : List Bytes} {body : Bytes}

theorem trimSome {value : Bytes} {c : UInt8} (mem : c ∈ value) (solid : isSpace c = false) : trim value ≠ [] := by
  intro none
  unfold trim at none
  rw [List.reverse_eq_nil_iff, List.dropWhile_eq_nil_iff] at none
  have held : c ∈ value.dropWhile isSpace := by
    rw [← List.takeWhile_append_dropWhile (p := isSpace) (l := value), List.mem_append] at mem
    refine mem.resolve_left (fun blank => ?_)
    simp [List.mem_takeWhile_imp blank] at solid
  simp [none c (List.mem_reverse.mpr held)] at solid

theorem quoteMem (a b : ℕ) (s : Bytes) : dquote ∈ spaces a ++ quoted s ++ spaces b := by simp [quoted]

theorem clearItem {target : UInt8} (other : target ≠ space) (s : Bytes) (a b : ℕ) :
    Clear target (spaces a ++ quoted s ++ spaces b) :=
  clearAppend (clearAppend (clearSpaces a other) (clearQuoted s)) (clearSpaces b other)

theorem clearItems (written : ItemsText items body) : Clear hash body := by
  induction written with
  | none n => exact clearSpaces n (by decide)
  | last s a b => exact clearItem (by decide) s a b
  | cons a b further ih =>
    exact clearAppend (clearItem (by decide) _ a b)
      (clearAppend (clearByte (c := comma) (by decide) (by decide) (by decide)) ih)

theorem clearList (written : ItemsText items body) : Clear hash (opening :: body ++ [closing]) := by
  have edge : Clear hash [opening] ∧ Clear hash [closing] :=
    ⟨clearByte (by decide) (by decide) (by decide),clearByte (by decide) (by decide) (by decide)⟩
  exact clearAppend (clearAppend edge.1 (clearItems written)) edge.2

theorem splitItemsText (written : ItemsText items body) : splitItems body = some items := by
  have solid : isSpace dquote = false := by decide
  induction written with
  | none n =>
    rw [splitItems, if_pos (trimBlank (spacesBlank n))]
  | last s a b =>
    rw [splitItems, if_neg (trimSome (quoteMem a b s) solid)]
    have none : findUnquoted (spaces a ++ quoted s ++ spaces b) comma = none :=
      findNone (clearItem (by decide) s a b)
    split
    · rw [unquoteQuoted _ _ (spacesBlank a) (spacesBlank b)]
      rfl
    · next pos found => exact absurd (none.symm.trans found) (by simp)
  | @cons s t rest text a b further ih =>
    have hit : findUnquoted (spaces a ++ quoted s ++ spaces b ++ comma :: text) comma =
        some (spaces a ++ quoted s ++ spaces b).length :=
      findHit (clearItem (by decide) s a b) (by decide) (by decide)
    rw [splitItems, if_neg (trimSome (List.mem_append_left _ (quoteMem a b s)) solid)]
    split
    · next none => exact absurd (none.symm.trans hit) (by simp)
    · next pos found =>
      obtain rfl : (spaces a ++ quoted s ++ spaces b).length = pos := Option.some.inj (hit.symm.trans found)
      rw [List.take_left, if_neg (trimSome (quoteMem a b s) solid), unquoteQuoted _ _ (spacesBlank a) (spacesBlank b),
        ← List.drop_drop, List.drop_left]
      simp [ih]

theorem trimList (before : Bytes) (blank : ∀ c ∈ before, isSpace c) (body : Bytes) :
    trim (before ++ (opening :: body ++ [closing])) = opening :: body ++ [closing] := by
  have head : isSpace opening = false := by decide
  have last : isSpace closing = false := by decide
  have ends : (opening :: body ++ [closing]).getLast? = some closing := List.getLast?_concat ..
  have tight := trimTight before (opening :: body ++ [closing]) [] blank (by simp) (by simp [head])
    (by simp only [ends]; simp [last])
  rwa [List.append_nil] at tight

theorem unquoteList (body : Bytes) : unquote (opening :: body ++ [closing]) = some (opening :: body ++ [closing]) := by
  have tight : trim (opening :: body ++ [closing]) = opening :: body ++ [closing] := by
    simpa using trimList [] (by simp) body
  have double : opening ≠ dquote := by decide
  have single : opening ≠ squote := by decide
  have head : (opening :: body ++ [closing]).head? = some opening := rfl
  unfold unquote
  simp only [tight, head]
  simp [double, single]

theorem readList (values : Values) {key : Bytes} (found : find values key = some (opening :: body ++ [closing]))
    (written : ItemsText items body) : tryGetRawList values key = some items := by
  have tight : trim (opening :: body ++ [closing]) = opening :: body ++ [closing] := by
    simpa using trimList [] (by simp) body
  have ends : (opening :: body ++ [closing]).getLast? = some closing := List.getLast?_concat ..
  have long : ¬(opening :: body ++ [closing]).length < 2 := by simp
  have inner : ((opening :: body ++ [closing]).drop 1).dropLast = body := by
    simp only [List.cons_append, List.drop_one, List.tail_cons]
    exact List.dropLast_concat
  unfold tryGetRawList
  simp only [found, Option.bind_eq_bind, Option.bind_some, tight, long, ends, inner, splitItemsText written]
  simp

end Lists

section Paths

theorem dottedSnoc (path : List Bytes) (key : Bytes) (valid : ∀ k ∈ path, k ≠ []) :
    dotted (path ++ [key]) = joinKey (dotted path) key := by
  induction path with
  | nil => simp [dotted, joinKey]
  | cons k path ih =>
    cases path with
    | nil => simp [dotted, joinKey, valid k]
    | cons l path =>
      have step : ∀ tail, dotted (k :: l :: tail) = k ++ dot :: dotted (l :: tail) := by
        intro tail
        rw [dotted, List.intercalate_cons_cons, List.append_assoc]
        rfl
      have some : dotted (l :: path) ≠ [] := by
        have filled := valid l (by simp)
        cases path with
        | nil => simpa [dotted] using filled
        | cons m path => simp [dotted, List.intercalate_cons_cons]
      have whole : dotted (k :: l :: path) ≠ [] := by simp [step]
      rw [List.cons_append, List.cons_append, step, ← List.cons_append,
        ih (fun m mem => valid m (List.mem_cons_of_mem k mem)), joinKey, joinKey, if_neg some, if_neg whole, step]
      simp

theorem dottedInj {p q : List Bytes} (hp : ∀ k ∈ p, ValidKey k) (hq : ∀ k ∈ q, ValidKey k) (some : p ≠ [])
    (some' : q ≠ []) (same : dotted p = dotted q) : p = q := by
  have noDot : ∀ {path : List Bytes}, (∀ k ∈ path, ValidKey k) → ∀ k ∈ path, dot ∉ k := by
    intro path valid k mem held
    exact (keyPlain ((valid k mem).2 dot held)).2.2.2.2.1 rfl
  rw [← List.splitOn_intercalate dot (noDot hp) some, ← List.splitOn_intercalate dot (noDot hq) some']
  exact congrArg _ same

theorem fullKeyDotted (above : List (ℕ × Bytes)) (key : Bytes) (named : ∀ s ∈ above, s.2 ≠ []) :
    fullKey above key = dotted (above.reverse.map Prod.snd ++ [key]) := by
  have folds : ∀ l : List (ℕ × Bytes), (∀ s ∈ l, s.2 ≠ []) →
      l.foldl (fun full s => joinKey full s.2) [] = dotted (l.map Prod.snd) := by
    intro l named
    induction l using List.reverseRecOn with
    | nil => rfl
    | append_singleton l s ih =>
      have before : ∀ k ∈ l.map Prod.snd, k ≠ [] := by
        intro k mem
        obtain ⟨r,held,rfl⟩ := List.mem_map.mp mem
        exact named r (List.mem_append_left _ held)
      rw [List.foldl_append, ih (fun r mem => named r (List.mem_append_left _ mem)), List.map_append]
      exact (dottedSnoc _ s.2 before).symm
  have named' : ∀ k ∈ above.reverse.map Prod.snd, k ≠ [] := by
    intro k mem
    obtain ⟨r,held,rfl⟩ := List.mem_map.mp mem
    exact named r (List.mem_reverse.mp held)
  rw [fullKey, folds above.reverse (fun s mem => named s (List.mem_reverse.mp mem)), dottedSnoc _ key named']

theorem leafPath (m : Mapping) (above : List Bytes) {l : List Bytes × Leaf} (mem : l ∈ m.leaves above) :
    ∃ k ∈ m.keys, ∃ below, l.1 = above ++ k :: below := by
  induction m generalizing above with
  | nil => simp [Mapping.leaves] at mem
  | text key value rest ih =>
    rcases List.mem_cons.mp mem with rfl | mem
    · exact ⟨key,List.mem_cons_self,[],rfl⟩
    · obtain ⟨k,held,below,path⟩ := ih above mem
      exact ⟨k,List.mem_cons_of_mem key held,below,path⟩
  | list key items rest ih =>
    rcases List.mem_cons.mp mem with rfl | mem
    · exact ⟨key,List.mem_cons_self,[],rfl⟩
    · obtain ⟨k,held,below,path⟩ := ih above mem
      exact ⟨k,List.mem_cons_of_mem key held,below,path⟩
  | mapping key children rest ihc ih =>
    rcases List.mem_append.mp mem with mem | mem
    · obtain ⟨k,_,below,path⟩ := ihc (above ++ [key]) mem
      exact ⟨key,List.mem_cons_self,k :: below,by simp [path]⟩
    · obtain ⟨k,held,below,path⟩ := ih above mem
      exact ⟨k,List.mem_cons_of_mem key held,below,path⟩

theorem leafKeys {m : Mapping} (valid : m.Valid) {above : List Bytes} (outer : ∀ k ∈ above, ValidKey k)
    {l : List Bytes × Leaf} (mem : l ∈ m.leaves above) : ∀ k ∈ l.1, ValidKey k := by
  have grown : ∀ {key}, ValidKey key → ∀ k ∈ above ++ [key], ValidKey k := by
    intro key here k mem
    rcases List.mem_append.mp mem with mem | mem
    · exact outer k mem
    · exact List.mem_singleton.mp mem ▸ here
  induction m generalizing above with
  | nil => simp [Mapping.leaves] at mem
  | text key value rest ih =>
    rcases List.mem_cons.mp mem with rfl | mem
    · exact grown valid.1
    · exact ih valid.2.2 outer mem grown
  | list key items rest ih =>
    rcases List.mem_cons.mp mem with rfl | mem
    · exact grown valid.1
    · exact ih valid.2.2 outer mem grown
  | mapping key children rest ihc ih =>
    rcases List.mem_append.mp mem with mem | mem
    · refine ihc valid.2.2.1 (grown valid.1) mem (fun here k held => ?_)
      rcases List.mem_append.mp held with held | held
      · exact grown valid.1 k held
      · exact List.mem_singleton.mp held ▸ here
    · exact ih valid.2.2.2 outer mem grown

theorem leafOther {rest : Mapping} {above : List Bytes} {key : Bytes} {l : List Bytes × Leaf} (distinct : key ∉ rest.keys)
    (mem : l ∈ rest.leaves above) (below : List Bytes) : l.1 ≠ above ++ key :: below := by
  intro same
  obtain ⟨k,held,tail,path⟩ := leafPath rest above mem
  rw [path, List.append_cancel_left_eq, List.cons.injEq] at same
  exact distinct (same.1 ▸ held)

theorem leavesNodup {m : Mapping} (valid : m.Valid) (above : List Bytes) : ((m.leaves above).map Prod.fst).Nodup := by
  induction m generalizing above with
  | nil => exact List.nodup_nil
  | text key value rest ih =>
    refine List.nodup_cons.mpr ⟨fun mem => ?_,ih valid.2.2 above⟩
    obtain ⟨l,held,same⟩ := List.mem_map.mp mem
    exact leafOther valid.2.1 held [] same
  | list key items rest ih =>
    refine List.nodup_cons.mpr ⟨fun mem => ?_,ih valid.2.2 above⟩
    obtain ⟨l,held,same⟩ := List.mem_map.mp mem
    exact leafOther valid.2.1 held [] same
  | mapping key children rest ihc ih =>
    rw [Mapping.leaves, List.map_append, List.nodup_append]
    refine ⟨ihc valid.2.2.1 _,ih valid.2.2.2 above,?_⟩
    intro p inner q outer same
    obtain ⟨l,held,rfl⟩ := List.mem_map.mp inner
    obtain ⟨r,held',rfl⟩ := List.mem_map.mp outer
    obtain ⟨k,_,below,path⟩ := leafPath children (above ++ [key]) held
    exact leafOther valid.2.1 held' (k :: below) (by rw [← same, path]; simp)

theorem leafSome {m : Mapping} {above : List Bytes} {l : List Bytes × Leaf} (mem : l ∈ m.leaves above) : l.1 ≠ [] := by
  obtain ⟨k,_,below,path⟩ := leafPath m above mem
  simp [path]

theorem dottedNodup {m : Mapping} (valid : m.Valid) : ((m.leaves []).map (fun l => dotted l.1)).Nodup := by
  have keys : ∀ l ∈ m.leaves [], ∀ k ∈ l.1, ValidKey k := fun l mem => leafKeys valid (by simp) mem
  have paths := leavesNodup valid []
  have whole : (m.leaves []).map (fun l => dotted l.1) = ((m.leaves []).map Prod.fst).map dotted := by simp
  rw [whole]
  refine paths.map_on (fun p hp q hq same => ?_)
  obtain ⟨l,held,rfl⟩ := List.mem_map.mp hp
  obtain ⟨r,held',rfl⟩ := List.mem_map.mp hq
  exact dottedInj (keys l held) (keys r held') (leafSome held) (leafSome held') same

end Paths

section Loading
variable {allowed : UInt8 → Prop}

def Stored : Leaf → Bytes → Prop
  | .text s, value => value = s
  | .list items, value => ∃ body, value = opening :: body ++ [closing] ∧ ItemsText items body

def Adds (above : List Bytes) (m : Mapping) (news : Values) : Prop :=
  List.Forall₂ (fun l e => e.1 = dotted l.1 ∧ Stored l.2 e.2) (m.leaves above) news

theorem addsKeys {above : List Bytes} {m : Mapping} {news : Values} (adds : Adds above m news) :
    news.map Prod.fst = (m.leaves above).map (fun l => dotted l.1) := by
  unfold Adds at adds
  generalize m.leaves above = leaves at adds ⊢
  induction adds with
  | nil => rfl
  | cons first _ ih => rw [List.map_cons, List.map_cons, ih, first.1]

theorem emplaceNew {values : Values} {key value : Bytes} (new : key ∉ values.map Prod.fst) :
    emplace values key value = some (values ++ [(key,value)]) := by
  have none : find values key = none := by
    unfold find
    rw [Option.map_eq_none_iff, List.find?_eq_none]
    intro e mem same
    exact new (List.mem_map.mpr ⟨e,mem,by simpa using same⟩)
  simp [emplace, none]

def path (above : List (ℕ × Bytes)) : List Bytes := above.reverse.map Prod.snd

theorem popJunk {above junk : List (ℕ × Bytes)} {d : ℕ} (outer : ∀ s ∈ above, s.1 < d) (inner : ∀ s ∈ junk, d ≤ s.1) :
    (junk ++ above).dropWhile (fun s => d ≤ s.1) = above := by
  rw [List.dropWhile_append_of_pos (fun s mem => by simpa using inner s mem)]
  cases above with
  | nil => rfl
  | cons s rest => exact List.dropWhile_cons_of_neg (by simpa using outer s List.mem_cons_self)

theorem loadScalar {above junk : List (ℕ × Bytes)} {values : Values} {d a b : ℕ} {key raw value tail : Bytes}
    (tabless : ¬allowed tab) (valid : ValidKey key) (clear : Clear hash raw) (noTab : tab ∉ raw)
    (edge : ∀ c ∈ raw.getLast?, isSpace c = false) (ends : Tail allowed tail) (outer : ∀ s ∈ above, s.1 < d)
    (named : ∀ s ∈ above, s.2 ≠ []) (inner : ∀ s ∈ junk, d ≤ s.1) (trimmed : trim (spaces b ++ raw) = raw)
    (filled : raw ≠ []) (unquoted : unquote raw = some value)
    (new : dotted (path above ++ [key]) ∉ values.map Prod.fst) :
    loadLine ⟨junk ++ above,values⟩ (entry d key a (spaces b ++ raw) tail) =
      some ⟨above,values ++ [(dotted (path above ++ [key]),value)]⟩ := by
  have noTab' : tab ∉ spaces b ++ raw := by
    rw [List.mem_append, not_or]
    refine ⟨fun mem => ?_,noTab⟩
    exact absurd (List.eq_of_mem_replicate mem) (by decide)
  have edge' : ∀ c ∈ (colon :: (spaces b ++ raw)).getLast?, isSpace c = false := by
    have same : (colon :: (spaces b ++ raw)).getLast? = raw.getLast? := by
      rw [← List.cons_append]
      exact List.getLast?_append_of_ne_nil _ filled
    rw [same]
    exact edge
  rw [loadEntry valid (clearAppend (clearSpaces b (by decide)) clear) noTab' edge' ends tabless]
  simp only [popJunk outer inner, trimmed, if_neg filled, unquoted, fullKeyDotted above key named]
  rw [path] at new
  simp only [Option.bind_some, emplaceNew new, path]

theorem quotedPlain {c : UInt8} (control : c = tab ∨ c = lf) (s : Bytes) : c ∉ quoted s := by
  have inside : c ∉ s.flatMap escapeByte := by
    intro mem
    obtain ⟨b,_,held⟩ := List.mem_flatMap.mp mem
    rcases escapeShape b with ⟨_,special⟩ | ⟨same,_,_,notLf,notTab⟩
    · rcases control with rfl | rfl <;> rcases special with rfl | rfl | rfl | rfl | rfl <;> exact absurd held (by decide)
    · rw [same, List.mem_singleton] at held
      rcases control with rfl | rfl
      · exact notTab held.symm
      · exact notLf held.symm
  have edge : c ≠ dquote := by rcases control with rfl | rfl <;> decide
  simp [quoted, inside, edge]

theorem spacesPlain {c : UInt8} (control : c = tab ∨ c = lf) (n : ℕ) : c ∉ spaces n := by
  intro mem
  have same := List.eq_of_mem_replicate mem
  rcases control with rfl | rfl <;> exact absurd same (by decide)

theorem itemsPlain {c : UInt8} (control : c = tab ∨ c = lf) {items : List Bytes} {body : Bytes}
    (written : ItemsText items body) : c ∉ body := by
  have comma' : c ≠ comma := by rcases control with rfl | rfl <;> decide
  induction written with
  | none n => exact spacesPlain control n
  | last s a b => simp [spacesPlain control, quotedPlain control]
  | cons a b further ih => simp [spacesPlain control, quotedPlain control, comma', ih]

theorem listPlain {c : UInt8} (control : c = tab ∨ c = lf) {items : List Bytes} {body : Bytes}
    (written : ItemsText items body) : c ∉ opening :: body ++ [closing] := by
  have edges : c ≠ opening ∧ c ≠ closing := by rcases control with rfl | rfl <;> decide
  simp [itemsPlain control written, edges]

theorem nextFresh (value : Bytes) {values : Values} {key : Bytes} {rest : List Bytes}
    (fresh : (values.map Prod.fst ++ key :: rest).Nodup) :
    key ∉ values.map Prod.fst ∧ ((values ++ [(key,value)]).map Prod.fst ++ rest).Nodup := by
  refine ⟨fun mem => ?_,by simpa using fresh⟩
  exact (List.nodup_append.mp fresh).2.2 _ mem _ List.mem_cons_self rfl

theorem loadRenders (tabless : ¬allowed tab) {d : ℕ} {m : Mapping} {lines : List Bytes} (renders : Renders allowed d m lines)
    (valid : m.Valid) (above junk : List (ℕ × Bytes)) (outer : ∀ s ∈ above, s.1 < d) (named : ∀ s ∈ above, s.2 ≠ [])
    (inner : ∀ s ∈ junk, d ≤ s.1) (values : Values)
    (fresh : (values.map Prod.fst ++ (m.leaves (path above)).map (fun l => dotted l.1)).Nodup) :
    ∃ junk' news, loadLines ⟨junk ++ above,values⟩ lines = some ⟨junk' ++ above,values ++ news⟩ ∧
      (∀ s ∈ junk', d ≤ s.1) ∧ Adds (path above) m news := by
  induction renders generalizing above junk values with
  | nil => exact ⟨junk,[],by simp [loadLines],inner,.nil⟩
  | @filler d m line lines blank further ih =>
    obtain ⟨junk',news,loaded,inner',adds⟩ := ih valid above junk outer named inner values fresh
    refine ⟨junk',news,?_,inner',adds⟩
    rw [loadLines, List.foldlM_cons, loadFiller blank tabless]
    exact loaded
  | @text d key value rest tail lines a b ends further ih =>
    obtain ⟨new,fresh'⟩ := nextFresh value fresh
    have last : (quoted value).getLast? = some dquote := List.getLast?_concat ..
    have line := loadScalar (a := a) (b := b) tabless valid.1 (clearQuoted value)
      (quotedPlain (.inl rfl) value) (by rw [last]; rintro c ⟨rfl⟩; decide) ends outer named inner
      (by
        have tight := trimTight _ (quoted value) [] (spacesBlank b) (by simp)
          (by rintro c ⟨rfl⟩; decide) (by rw [last]; rintro c ⟨rfl⟩; decide)
        rwa [List.append_nil] at tight)
      (by simp [quoted])
      (by simpa using unquoteQuoted [] [] (by simp) (by simp) value) new
    obtain ⟨junk',news,loaded,inner',adds⟩ := ih valid.2.2 above [] outer named (by simp) _ fresh'
    refine ⟨junk',(dotted (path above ++ [key]),value) :: news,?_,inner',.cons ⟨rfl,rfl⟩ adds⟩
    rw [loadLines, List.foldlM_cons, line]
    simpa [loadLines] using loaded
  | @list d key items body rest tail lines a b written ends further ih =>
    obtain ⟨new,fresh'⟩ := nextFresh (opening :: body ++ [closing]) fresh
    have last : (opening :: body ++ [closing]).getLast? = some closing := List.getLast?_concat ..
    have line := loadScalar (a := a) (b := b) tabless valid.1 (clearList written)
      (listPlain (.inl rfl) written) (by rw [last]; rintro c ⟨rfl⟩; decide) ends outer named inner
      (trimList _ (spacesBlank b) body) (by simp) (unquoteList body) new
    obtain ⟨junk',news,loaded,inner',adds⟩ := ih valid.2.2 above [] outer named (by simp) _ fresh'
    refine ⟨junk',(dotted (path above ++ [key]),opening :: body ++ [closing]) :: news,?_,inner',
      .cons ⟨rfl,body,rfl,written⟩ adds⟩
    rw [loadLines, List.foldlM_cons, line]
    simpa [loadLines] using loaded
  | @mapping d e key children rest tail below lines a ends deeper inside further ihc ih =>
    have line : loadLine ⟨junk ++ above,values⟩ (entry d key a [] tail) = some ⟨(d,key) :: above,values⟩ := by
      rw [loadEntry valid.1 clearNil (by simp) (by rintro c ⟨rfl⟩; decide) ends tabless]
      simp only [popJunk outer inner]
      rfl
    have outer' : ∀ s ∈ (d,key) :: above, s.1 < e := by
      intro s mem
      rcases List.mem_cons.mp mem with rfl | mem
      · exact deeper
      · exact (outer s mem).trans deeper
    have named' : ∀ s ∈ (d,key) :: above, s.2 ≠ [] := by
      intro s mem
      rcases List.mem_cons.mp mem with rfl | mem
      · exact valid.1.1
      · exact named s mem
    have grown : path ((d,key) :: above) = path above ++ [key] := by simp [path]
    have split : (values.map Prod.fst ++ ((children.leaves (path above ++ [key])).map (fun l => dotted l.1) ++
        (rest.leaves (path above)).map (fun l => dotted l.1))).Nodup := by
      rw [← List.map_append]
      exact fresh
    obtain ⟨junk',news,loaded,inner',adds⟩ := ihc valid.2.2.1 ((d,key) :: above) [] outer' named' (by simp) values
      (by rw [grown]; exact split.sublist (by rw [← List.append_assoc]; exact List.sublist_append_left ..))
    rw [grown] at adds
    have stored := addsKeys adds
    obtain ⟨junk'',news',loaded',inner'',adds'⟩ := ih valid.2.2.2 above (junk' ++ [(d,key)]) outer named
      (by
        intro s mem
        rcases List.mem_append.mp mem with mem | mem
        · exact deeper.le.trans (inner' s mem)
        · exact (List.mem_singleton.mp mem ▸ le_rfl))
      (values ++ news) (by rw [List.map_append, stored, List.append_assoc]; exact split)
    refine ⟨junk'',news ++ news',?_,inner'',?_⟩
    · rw [List.nil_append, loadLines] at loaded
      rw [List.append_assoc, List.singleton_append, loadLines] at loaded'
      rw [loadLines, List.foldlM_cons, line]
      simp only [Option.bind_eq_bind, Option.bind_some, List.foldlM_append, loaded, loaded', List.append_assoc]
    · rw [Adds, Mapping.leaves]
      exact List.rel_append adds adds'

theorem findMember {values : Values} (distinct : (values.map Prod.fst).Nodup) {e : Bytes × Bytes} (mem : e ∈ values) :
    find values e.1 = some e.2 := by
  induction values with
  | nil => simp at mem
  | cons f rest ih =>
    obtain ⟨new,distinct⟩ := List.nodup_cons.mp distinct
    rcases List.mem_cons.mp mem with rfl | mem
    · simp [find]
    · have other : f.1 ≠ e.1 := by
        intro same
        exact new (same ▸ List.mem_map_of_mem mem)
      have further := ih distinct mem
      simpa [find, other] using further

theorem findKey {values : Values} {key value : Bytes} (found : find values key = some value) :
    key ∈ values.map Prod.fst := by
  obtain ⟨e,here,_⟩ := Option.map_eq_some_iff.mp found
  exact List.mem_map.mpr ⟨e,List.mem_of_find?_eq_some here,by simpa using List.find?_some here⟩

theorem getlinesAppend {line : Bytes} (noLf : lf ∉ line) (text : Bytes) :
    getlines (line ++ lf :: text) = line :: getlines text := by
  induction line with
  | nil => simp [getlines]
  | cons c line ih =>
    have other : c ≠ lf := fun same => noLf (same ▸ List.mem_cons_self)
    rw [List.cons_append, getlines, if_neg other, ih (fun mem => noLf (List.mem_cons_of_mem c mem))]

theorem getlinesWhole {lines : List Bytes} (noLf : ∀ line ∈ lines, lf ∉ line) :
    getlines (lines.flatMap (· ++ [lf])) = lines := by
  induction lines with
  | nil => rfl
  | cons line lines ih =>
    rw [List.flatMap_cons, List.append_assoc, List.singleton_append, getlinesAppend (noLf line List.mem_cons_self),
      ih (fun l mem => noLf l (List.mem_cons_of_mem line mem))]

theorem getlinesEnd (text : Bytes) :
    getlines (text ++ [lf]) = getlines text ∨ getlines (text ++ [lf]) = getlines text ++ [[]] := by
  induction text with
  | nil => exact .inr (by simp [getlines])
  | cons c text ih =>
    rw [List.cons_append, getlines, getlines]
    by_cases feed : c = lf
    · rw [if_pos feed, if_pos feed]
      exact ih.imp (congrArg _) (congrArg _)
    · rw [if_neg feed, if_neg feed]
      rcases ih with same | longer
      · rw [same]
        exact .inl rfl
      · rw [longer]
        cases getlines text with
        | nil => exact .inl rfl
        | cons line lines => exact .inr rfl

theorem loadWritten {lines : List Bytes} {text : Bytes} (noLf : ∀ line ∈ lines, lf ∉ line) (written : Written lines text)
    {loader : Loader} (loaded : loadLines ⟨[],[]⟩ lines = some loader) : load text = (true,loader.values) := by
  have same : loadLines ⟨[],[]⟩ (getlines text) = some loader := by
    rcases written with rfl | whole
    · rw [getlinesWhole noLf, loaded]
    · have ends := getlinesEnd text
      rw [whole, getlinesWhole noLf] at ends
      rcases ends with same | longer
      · rw [← same, loaded]
      · rw [longer, loadLines, List.foldlM_append] at loaded
        cases before : loadLines ⟨[],[]⟩ (getlines text) with
        | none =>
          rw [loadLines] at before
          simp [before] at loaded
        | some earlier =>
          rw [loadLines] at before
          have blank : loadLine earlier [] = some earlier := by simp [loadLine, stripComment, findUnquoted, findFrom, trim]
          simpa [before, blank] using loaded
  simp [load, same]

theorem rendersLines {d : ℕ} {m : Mapping} {lines : List Bytes} (renders : Renders allowed d m lines) (valid : m.Valid)
    (single : ¬allowed lf) : ∀ line ∈ lines, lf ∉ line := by
  have noTail : ∀ {tail}, Tail allowed tail → lf ∉ tail := by
    intro tail ends mem
    rcases tailAllowed ends mem with same | same | held
    · exact absurd same (by decide)
    · exact absurd same (by decide)
    · exact single held
  have noEntry : ∀ {d key a after tail}, ValidKey key → lf ∉ after → Tail allowed tail → lf ∉ entry d key a after tail := by
    intro d key a after tail valid plain ends mem
    rcases entryMem mem with same | mem | same | mem | mem
    · exact absurd same (by decide)
    · exact (keyPlain (valid.2 _ mem)).2.2.2.2.2.2.1 rfl
    · exact absurd same (by decide)
    · exact plain mem
    · exact noTail ends mem
  induction renders with
  | nil => simp
  | filler blank further ih =>
    refine List.forall_mem_cons.mpr ⟨?_,ih valid⟩
    obtain ⟨white,comment,rfl,white',ends⟩ := blank
    have tail : lf ∉ comment := noTail ⟨0,comment,rfl,ends⟩
    rw [List.mem_append, not_or]
    exact ⟨fun mem => single (white' lf mem).2,tail⟩
  | text a b ends further ih =>
    exact List.forall_mem_cons.mpr ⟨noEntry valid.1 (by simp [spacesPlain, quotedPlain]) ends,ih valid.2.2⟩
  | list a b written ends further ih =>
    have plain := listPlain (.inr rfl) written
    exact List.forall_mem_cons.mpr ⟨noEntry valid.1 (by
      rw [List.mem_append, not_or]
      exact ⟨spacesPlain (.inr rfl) b,plain⟩) ends,ih valid.2.2⟩
  | mapping a ends deeper below further ihc ih =>
    refine List.forall_mem_cons.mpr ⟨noEntry valid.1 (by simp) ends,?_⟩
    exact List.forall_mem_append.mpr ⟨ihc valid.2.2.1,ih valid.2.2.2⟩

end Loading

structure ReadsBack (m : Mapping) (values : Values) : Prop where
  text : ∀ path value, (path,Leaf.text value) ∈ m.leaves [] → ∀ default, get values (dotted path) default = value
  list : ∀ path items, (path,Leaf.list items) ∈ m.leaves [] → getList values (dotted path) = items
  only : ∀ key, contains values key = true ↔ ∃ l ∈ m.leaves [], key = dotted l.1

theorem addsMember {above : List Bytes} {m : Mapping} {values : Values} (adds : Adds above m values)
    {l : List Bytes × Leaf} (mem : l ∈ m.leaves above) : ∃ e ∈ values, e.1 = dotted l.1 ∧ Stored l.2 e.2 := by
  unfold Adds at adds
  generalize m.leaves above = leaves at adds mem
  induction adds with
  | nil => simp at mem
  | cons first _ ih =>
    rcases List.mem_cons.mp mem with rfl | mem
    · exact ⟨_,List.mem_cons_self,first⟩
    · obtain ⟨e,held,stored⟩ := ih mem
      exact ⟨e,List.mem_cons_of_mem _ held,stored⟩

theorem addsRead {m : Mapping} {values : Values} (valid : m.Valid) (adds : Adds [] m values) : ReadsBack m values := by
  have keys := addsKeys adds
  have distinct : (values.map Prod.fst).Nodup := keys ▸ dottedNodup valid
  have stored : ∀ l ∈ m.leaves [], ∃ value, find values (dotted l.1) = some value ∧ Stored l.2 value := by
    intro l mem
    obtain ⟨e,held,same,stored⟩ := addsMember adds mem
    exact ⟨e.2,same ▸ findMember distinct held,stored⟩
  refine ⟨?_,?_,?_⟩
  · intro path value mem default
    obtain ⟨_,found,rfl⟩ := stored _ mem
    rw [get, found]
    rfl
  · intro path items mem
    obtain ⟨_,found,body,rfl,written⟩ := stored _ mem
    rw [getList, readList values found written]
    rfl
  · intro key
    constructor
    · intro here
      obtain ⟨value,found⟩ := Option.isSome_iff_exists.mp here
      have mem := findKey found
      rw [keys] at mem
      obtain ⟨l,held,same⟩ := List.mem_map.mp mem
      exact ⟨l,held,same.symm⟩
    · rintro ⟨l,mem,rfl⟩
      obtain ⟨value,found,_⟩ := stored l mem
      simp [contains, found]

/- Any text of a tree, with comments and blank lines that have no tab, is read back. -/
theorem loadsBack {d : ℕ} {m : Mapping} {lines : List Bytes} {text : Bytes} (valid : m.Valid)
    (renders : Renders (fun c => c ≠ lf ∧ c ≠ tab) d m lines) (written : Written lines text) :
    ∃ values, load text = (true,values) ∧ ReadsBack m values := by
  obtain ⟨junk,values,loaded,_,adds⟩ := loadRenders (fun h => h.2 rfl) renders valid [] [] (by simp) (by simp) (by simp)
    [] (dottedNodup valid)
  exact ⟨_,loadWritten (rendersLines renders valid (fun h => h.1 rfl)) written loaded,addsRead valid adds⟩

theorem sectionLoads : ∃ values, load (bytes "a:\n  b: \"x#\" # y\n") = (true,values) ∧
    ReadsBack (.mapping [97] (.text [98] [120,35] .nil) .nil) values := by
  have key : ValidKey [97] ∧ ValidKey [98] :=
    ⟨⟨by simp,List.forall_mem_singleton.mpr rfl⟩,⟨by simp,List.forall_mem_singleton.mpr rfl⟩⟩
  have words : Tail (fun c => c ≠ lf ∧ c ≠ tab) [space,hash,space,121] :=
    ⟨1,[hash,space,121],rfl,.inr ⟨[space,121],rfl,by simp [space, lf, tab]⟩⟩
  have renders : Renders (fun c => c ≠ lf ∧ c ≠ tab) 0 (.mapping [97] (.text [98] [120,35] .nil) .nil) _ :=
    .mapping 0 ⟨0,[],rfl,.inl rfl⟩ (show 0 < 2 by decide) (.text 0 1 words .nil) .nil
  exact loadsBack ⟨key.1,by simp [Mapping.keys],⟨key.2,by simp [Mapping.keys],trivial⟩,trivial⟩ renders (.inl (by decide))

theorem tabRefused : ¬∀ (d : ℕ) (m : Mapping) (lines : List Bytes) (text : Bytes), m.Valid →
    Renders (fun c => c ≠ lf) d m lines → Written lines text →
    ∃ values, load text = (true,values) ∧ ReadsBack m values := by
  intro claimed
  have renders : Renders (fun c => c ≠ lf) 0 .nil [[hash,tab]] :=
    .filler ⟨[],[hash,tab],rfl,by simp,.inr ⟨[tab],rfl,by simp; decide⟩⟩ .nil
  obtain ⟨values,loaded,_⟩ := claimed 0 .nil [[hash,tab]] [hash,tab,lf] trivial renders (.inl rfl)
  have refused : load [hash,tab,lf] = (false,[]) := by decide
  rw [refused] at loaded
  cases loaded

end Uco.YamlConfig
