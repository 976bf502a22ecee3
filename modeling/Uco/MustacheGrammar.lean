import Uco.Mustache

/-! The grammar of templates: how a text falls into tokens, and how tokens nest into sections. The
parser accepts exactly what the grammar derives and builds the tree of the derivation. -/
namespace Uco.Mustache

section Tokens

def Ordinary (delims : DelimiterSet) (input : Bytes) : Prop :=
  input ≠ [] ∧ delims.beginning.isPrefixOf input = false ∧ blankAt input = none

def PlainRun (delims : DelimiterSet) (run rest : Bytes) : Prop :=
  ∀ front back, run = front ++ back → back ≠ [] → Ordinary delims (back ++ rest)

inductive Lexes : DelimiterSet → Nat → Bytes → List Component → Prop where
  | done (delims position) : Lexes delims position [] []
  | blank {delims position rest tokens} (blank : Bytes)
      (noTag : delims.beginning.isPrefixOf (blank ++ rest) = false)
      (first : blankAt (blank ++ rest) = some blank)
      (next : Lexes delims (position + blank.length) rest tokens) :
      Lexes delims position (blank ++ rest) (textComponent blank position :: tokens)
  | text {delims position rest tokens} (run : Bytes) (more : run ≠ []) (plain : PlainRun delims run rest)
      (stop : ¬ Ordinary delims rest) (next : Lexes delims (position + run.length) rest tokens) :
      Lexes delims position (run ++ rest) (textComponent run position :: tokens)
  | tag {delims position rest tokens} (front : Bytes) (tag : ReadTag)
      (begins : delims.beginning.isPrefixOf (front ++ rest) = true)
      (read : readTag delims (front ++ rest) position = .ok tag) (size : tag.size = front.length)
      (next : Lexes tag.delimSet (position + front.length) rest tokens) :
      Lexes delims position (front ++ rest) (tag.comp :: tokens)

/- Sections nest: what a section tag opens is closed by an end tag of its name, and the tree keeps
the tag with what stands between the two. -/
inductive Nested : List Component → List Component → Prop where
  | nil : Nested [] []
  | leaf {tokens tree} (token : Component) (noBegin : token.tag.isSectionBegin = false)
      (noEnd : token.tag.isSectionEnd = false) (next : Nested tokens tree) : Nested (token :: tokens) (token :: tree)
  | «section» {body children tokens tree} (opening closing : Component)
      (begins : opening.tag.isSectionBegin = true) (ends : closing.tag.isSectionEnd = true)
      (same : closing.tag.name = opening.tag.name) (inside : Nested body children) (next : Nested tokens tree) :
      Nested (opening :: body ++ closing :: tokens) (opening.withChildren children :: tree)

end Tokens

section Reading

theorem findBound {needle text : Bytes} {k : Nat} (found : find needle text = some k) :
    k + needle.length ≤ text.length := by
  induction text generalizing k with
  | nil =>
    simp only [find] at found
    split at found
    · cases found
      subst needle
      simp
    · cases found
  | cons c rest ih =>
    simp only [find] at found
    split at found
    · rename_i here
      cases found
      simpa using (List.isPrefixOf_iff_prefix.mp here).length_le
    · obtain ⟨j,later,rfl⟩ := Option.map_eq_some_iff.mp found
      have := ih later
      rw [List.length_cons]
      omega

theorem readTagSize {delims : DelimiterSet} {input : Bytes} {position : Nat} {tag : ReadTag}
    (read : readTag delims input position = .ok tag) :
    ∃ length, find (tagDelimiterEnd delims input) (input.drop (openingSize delims input)) = some length ∧
      tag.size = openingSize delims input + length + (tagDelimiterEnd delims input).length ∧
      tag.comp.text = [] ∧ tag.comp.children = [] ∧ tag.comp.position = position := by
  simp only [readTag] at read
  split at read
  · cases read
  · rename_i length found
    refine ⟨length,found,?_⟩
    split at read
    · split at read
      · cases read
      · cases read
        exact ⟨rfl,rfl,rfl,rfl⟩
    · cases read
      exact ⟨rfl,rfl,rfl,rfl⟩

theorem openingWithin {delims : DelimiterSet} {input : Bytes} (begins : delims.beginning.isPrefixOf input = true)
    (more : delims.beginning ≠ []) : openingSize delims input ≤ input.length := by
  have within := (List.isPrefixOf_iff_prefix.mp begins).length_le
  rw [openingSize]
  split
  · rename_i unescaped
    simp only [isUnescapedVar, Bool.and_eq_true, decide_eq_true_eq] at unescaped
    have inside : input[delims.beginning.length]? ≠ none := by
      rw [unescaped.2, ne_eq, List.getElem?_eq_none_iff, Nat.le_zero, List.length_eq_zero_iff]
      exact more
    rw [ne_eq, List.getElem?_eq_none_iff] at inside
    omega
  · omega

theorem trimStart {s : Bytes} {c : UInt8} {rest : Bytes} (trimmed : trim s = c :: rest) : isspace c = false := by
  have front : trim s <+: s.dropWhile isspace := by
    rw [trim, ← List.reverse_suffix, List.reverse_reverse]
    exact List.dropWhile_suffix _
  rw [trimmed] at front
  obtain ⟨more,same⟩ := front
  have first := List.head?_dropWhile_not isspace s
  rw [← same] at first
  simpa using first

theorem trimEnd {s : Bytes} {c : UInt8} (last : (trim s).getLast? = some c) : isspace c = false := by
  rw [trim, List.getLast?_reverse] at last
  have first := List.head?_dropWhile_not isspace (s.dropWhile isspace).reverse
  rw [last] at first
  exact first

def Searchable (delimiter : Bytes) : Prop := delimiter ≠ [] ∧ ∀ c ∈ delimiter, c ≠ equalsSign ∧ isspace c = false

structure DelimiterSet.Valid (delims : DelimiterSet) : Prop where
  beginning : Searchable delims.beginning
  ending : Searchable delims.ending

theorem validSearchable {delimiter : Bytes} (more : delimiter ≠ []) (valid : isSetDelimiterValid delimiter = true) :
    Searchable delimiter := by
  refine ⟨more,fun c inside => ?_⟩
  have here := List.all_eq_true.mp valid c inside
  simpa only [Bool.not_eq_true', Bool.or_eq_false_iff, decide_eq_false_iff_not] using here

theorem nonspaceFound {s : Bytes} {spacepos : Nat}
    (blank : (trim s).findIdx? (fun ch => decide (ch = 32)) = some spacepos) :
    ∃ nonspace, findNonspace (trim s) spacepos = some nonspace ∧ 0 < spacepos ∧ nonspace < (trim s).length := by
  obtain ⟨within,here,_⟩ := List.findIdx?_eq_some_iff_getElem.mp blank
  have here : (trim s)[spacepos] = 32 := by simpa using here
  have later : spacepos + 1 < (trim s).length := by
    by_contra short
    have last : (trim s).getLast? = some 32 := by
      rw [List.getLast?_eq_getElem?, List.getElem?_eq_some_iff]
      have same : (trim s).length - 1 = spacepos := by omega
      exact ⟨by omega,by simpa only [same] using here⟩
    exact absurd (trimEnd last) (by decide)
  have first : 0 < spacepos := by
    cases shape : trim s with
    | nil =>
      rw [shape] at within
      cases within
    | cons c rest =>
      by_contra none
      obtain rfl : spacepos = 0 := by omega
      simp only [shape, List.getElem_cons_zero] at here
      exact absurd (trimStart shape) (by rw [here]; decide)
  have tail : (trim s).drop (spacepos + 1) ≠ [] := by
    rw [ne_eq, List.drop_eq_nil_iff]
    omega
  have last : ((trim s).drop (spacepos + 1)).getLast tail ≠ 32 := by
    intro same
    have whole : (trim s).getLast? = some 32 := by
      rw [← same, List.getLast_drop, ← List.getLast?_eq_some_getLast]
    exact absurd (trimEnd whole) (by decide)
  cases found : ((trim s).drop (spacepos + 1)).findIdx? (fun ch => decide (ch ≠ 32)) with
  | none =>
    have all := List.findIdx?_eq_none_iff.mp found _ (List.getLast_mem tail)
    simp only [ne_eq, decide_not, Bool.not_eq_false', decide_eq_true_eq] at all
    exact absurd all last
  | some k =>
    obtain ⟨inside,_⟩ := List.findIdx?_eq_some_iff_getElem.mp found
    rw [List.length_drop] at inside
    exact ⟨spacepos + 1 + k,by rw [findNonspace, found, Option.map_some],first,by omega⟩

theorem parsedValid {contents : Bytes} {delims : DelimiterSet} (parsed : parseSetDelimiterTag contents = some delims) :
    delims.Valid := by
  rw [parseSetDelimiterTag] at parsed
  split at parsed
  · cases parsed
  split at parsed
  · cases parsed
  simp only at parsed
  split at parsed
  · cases parsed
  rename_i spacepos blank
  obtain ⟨nonspace,found,first,within⟩ := nonspaceFound blank
  rw [found] at parsed
  simp only [Bool.and_eq_true] at parsed
  split at parsed
  · rename_i valid
    cases parsed
    refine ⟨validSearchable ?_ valid.1,validSearchable ?_ valid.2⟩
    · intro none
      have short := congrArg List.length none
      obtain ⟨inside,_⟩ := List.findIdx?_eq_some_iff_getElem.mp blank
      rw [List.length_take, List.length_nil] at short
      omega
    · rw [ne_eq, List.drop_eq_nil_iff]
      omega
  · cases parsed

theorem readTagValid {delims : DelimiterSet} {input : Bytes} {position : Nat} {tag : ReadTag} (valid : delims.Valid)
    (read : readTag delims input position = .ok tag) : tag.delimSet.Valid := by
  simp only [readTag] at read
  split at read
  · cases read
  · split at read
    · split at read
      · cases read
      · rename_i parsed
        cases read
        exact parsedValid parsed
    · cases read
      exact valid

end Reading

section Loop

theorem parseSkips (read rest : Bytes) (position : Nat) (p : Parser) :
    parseFrom read.length (read ++ rest) position p = parseFrom 0 rest (position + read.length) p := by
  induction read generalizing position with
  | nil => rfl
  | cons c read ih =>
    simp only [List.length_cons, List.cons_append, parseFrom]
    rw [ih, show position + 1 + read.length = position + (read.length + 1) by omega]

def finished (result : Except ParseError Parser) : Except ParseError OpenTree :=
  result.map fun p => p.processCurrentText.tree

@[simp] def OpenTree.feed (t : OpenTree) : List Component → Except ParseError OpenTree
  | [] => .ok t
  | token :: tokens =>
    match t.place token with
    | .error e => .error e
    | .ok t => t.feed tokens

@[simp] theorem placeText (t : OpenTree) (text : Bytes) (position : Nat) :
    t.place (textComponent text position) = .ok (t.push (textComponent text position)) := by
  simp [OpenTree.place, textComponent, Component.tag, Tag.plain, Tag.isSectionBegin, Tag.isSectionEnd]

variable {delims : DelimiterSet} {t : OpenTree}

theorem blankMore {input blank : Bytes} (first : blankAt input = some blank) : blank ≠ [] := by
  rintro rfl
  have inside := List.mem_of_find?_eq_some first
  exact absurd inside (by decide)

theorem loopBlank {p : Parser} {blank rest : Bytes} {position : Nat} (flushed : p.processCurrentText = .between delims t)
    (same : p.delimSet = delims) (noTag : delims.beginning.isPrefixOf (blank ++ rest) = false)
    (first : blankAt (blank ++ rest) = some blank) :
    parseFrom 0 (blank ++ rest) position p =
      parseFrom 0 rest (position + blank.length) (.between delims (t.push (textComponent blank position))) := by
  cases blank with
  | nil => exact absurd rfl (blankMore first)
  | cons c more =>
    rw [List.cons_append] at noTag first ⊢
    rw [parseFrom, same, noTag, if_neg Bool.false_ne_true]
    simp only [first, flushed]
    rw [show (c :: more).length - 1 = more.length from rfl, parseSkips,
      show position + 1 + more.length = position + (c :: more).length by rw [List.length_cons]; omega]
    rfl

theorem loopTag {p : Parser} {front rest : Bytes} {position : Nat} {tag : ReadTag} {t' : OpenTree}
    (flushed : p.processCurrentText = .between delims t) (same : p.delimSet = delims) (more : front ≠ [])
    (begins : delims.beginning.isPrefixOf (front ++ rest) = true)
    (read : readTag delims (front ++ rest) position = .ok tag) (size : tag.size = front.length)
    (placed : t.place tag.comp = .ok t') :
    parseFrom 0 (front ++ rest) position p =
      parseFrom 0 rest (position + front.length) (.between tag.delimSet t') := by
  cases front with
  | nil => exact absurd rfl more
  | cons c front =>
    rw [List.cons_append] at begins read ⊢
    rw [parseFrom, same, begins, if_pos rfl]
    simp only [read, flushed, Parser.between, placed]
    rw [size, show (c :: front).length - 1 = front.length from rfl, parseSkips,
      show position + 1 + front.length = position + (c :: front).length by rw [List.length_cons]; omega]

theorem loopTagOk {p p' : Parser} {input : Bytes} {position : Nat} (flushed : p.processCurrentText = .between delims t)
    (same : p.delimSet = delims) (more : input ≠ []) (begins : delims.beginning.isPrefixOf input = true)
    (parsed : parseFrom 0 input position p = .ok p') :
    ∃ tag t', readTag delims input position = .ok tag ∧ t.place tag.comp = .ok t' := by
  cases input with
  | nil => exact absurd rfl more
  | cons c rest =>
    rw [parseFrom, same, begins, if_pos rfl] at parsed
    split at parsed
    · cases parsed
    · rename_i tag read
      simp only [flushed] at parsed
      split at parsed
      · cases parsed
      · rename_i t' placed
        exact ⟨tag,t',read,placed⟩

theorem loopPlain {p : Parser} {run rest : Bytes} {position : Nat} (plain : PlainRun p.delimSet run rest)
    (more : p.currentText ≠ []) :
    parseFrom 0 (run ++ rest) position p =
      parseFrom 0 rest (position + run.length) { p with currentText := p.currentText ++ run } := by
  induction run generalizing position p with
  | nil => simp
  | cons c run ih =>
    obtain ⟨_,noTag,noBlank⟩ := plain [] (c :: run) rfl (by simp)
    rw [List.cons_append] at noTag noBlank ⊢
    rw [parseFrom, noTag, if_neg Bool.false_ne_true]
    simp only [noBlank]
    have next : (p.append c position).currentText ≠ [] := by simp [Parser.append]
    rw [ih (p := p.append c position)
        (fun front back cut some => plain (c :: front) back (by rw [cut, List.cons_append]) some) next,
      show position + 1 + run.length = position + (c :: run).length by rw [List.length_cons]; omega]
    simp only [Parser.append, if_neg more, List.append_assoc, List.singleton_append]

theorem loopRun {run rest : Bytes} {position : Nat} (more : run ≠ []) (plain : PlainRun delims run rest) :
    parseFrom 0 (run ++ rest) position (.between delims t) =
      parseFrom 0 rest (position + run.length) ⟨delims,t,run,position⟩ := by
  cases run with
  | nil => exact absurd rfl more
  | cons c run =>
    obtain ⟨_,noTag,noBlank⟩ := plain [] (c :: run) rfl (by simp)
    rw [List.cons_append] at noTag noBlank ⊢
    rw [parseFrom, show (Parser.between delims t).delimSet = delims from rfl, noTag, if_neg Bool.false_ne_true]
    simp only [noBlank]
    rw [loopPlain (fun front back cut some => plain (c :: front) back (by rw [cut, List.cons_append]) some)
      (by simp [Parser.append]), show position + 1 + run.length = position + (c :: run).length by rw [List.length_cons]; omega]
    rfl

theorem plainCut (delims : DelimiterSet) (input : Bytes) :
    ∃ run rest, input = run ++ rest ∧ PlainRun delims run rest ∧ ¬ Ordinary delims rest := by
  induction input with
  | nil => exact ⟨[],[],rfl,fun front back cut some => absurd (List.append_eq_nil_iff.mp cut.symm).2 some,fun o => o.1 rfl⟩
  | cons c input ih =>
    by_cases here : Ordinary delims (c :: input)
    · obtain ⟨run,rest,rfl,plain,stop⟩ := ih
      refine ⟨c :: run,rest,rfl,fun front back cut some => ?_,stop⟩
      cases front with
      | nil =>
        rw [List.nil_append] at cut
        subst cut
        exact here
      | cons d front => exact plain front back (List.cons.inj cut).2 some
    · exact ⟨[],c :: input,rfl,fun front back cut some => absurd (List.append_eq_nil_iff.mp cut.symm).2 some,here⟩

theorem tagFront {input : Bytes} {position : Nat} {tag : ReadTag} (valid : delims.Valid)
    (begins : delims.beginning.isPrefixOf input = true) (read : readTag delims input position = .ok tag) :
    ∃ front rest, input = front ++ rest ∧ tag.size = front.length ∧ front ≠ [] := by
  obtain ⟨length,found,size,_⟩ := readTagSize read
  have within := openingWithin begins valid.beginning.1
  have bound := findBound found
  have some := List.length_pos_iff.mpr valid.beginning.1
  have opening : delims.beginning.length ≤ openingSize delims input := Nat.le_add_right _ _
  rw [List.length_drop] at bound
  refine ⟨input.take tag.size,input.drop tag.size,(List.take_append_drop _ _).symm,?_,fun none => ?_⟩
  · rw [List.length_take]
    omega
  · have := congrArg List.length none
    rw [List.length_take, List.length_nil] at this
    omega

theorem stopParses {p p' : Parser} {input : Bytes} {position : Nat} (valid : delims.Valid)
    (flushed : p.processCurrentText = .between delims t) (same : p.delimSet = delims) (stop : ¬ Ordinary delims input)
    (rec : ∀ (rest : Bytes) (position : Nat) (delims : DelimiterSet) (t : OpenTree) (p' : Parser),
      rest.length < input.length → delims.Valid → parseFrom 0 rest position (.between delims t) = .ok p' →
        ∃ tokens, Lexes delims position rest tokens ∧ t.feed tokens = .ok p'.processCurrentText.tree)
    (parsed : parseFrom 0 input position p = .ok p') :
    ∃ tokens, Lexes delims position input tokens ∧ t.feed tokens = .ok p'.processCurrentText.tree := by
  by_cases empty : input = []
  · subst empty
    cases parsed
    rw [flushed]
    exact ⟨[],.done delims position,rfl⟩
  cases begins : delims.beginning.isPrefixOf input with
  | true =>
    obtain ⟨tag,t',read,placed⟩ := loopTagOk flushed same empty begins parsed
    obtain ⟨front,rest,rfl,size,more⟩ := tagFront valid begins read
    rw [loopTag flushed same more begins read size placed] at parsed
    have shorter : rest.length < (front ++ rest).length := by
      have := List.length_pos_iff.mpr more
      rw [List.length_append]
      omega
    obtain ⟨tokens,lexed,fed⟩ := rec rest _ _ t' p' shorter (readTagValid valid read) parsed
    exact ⟨tag.comp :: tokens,.tag front tag begins read size lexed,by rw [OpenTree.feed, placed]; exact fed⟩
  | false =>
    cases first : blankAt input with
    | none => exact absurd ⟨empty,begins,first⟩ stop
    | some blank =>
      have front := List.find?_some (p := fun blank : Bytes => blank.isPrefixOf input) first
      obtain ⟨rest,rfl⟩ := List.isPrefixOf_iff_prefix.mp front
      rw [loopBlank flushed same begins first] at parsed
      have shorter : rest.length < (blank ++ rest).length := by
        have := List.length_pos_iff.mpr (blankMore first)
        rw [List.length_append]
        omega
      obtain ⟨tokens,lexed,fed⟩ := rec rest _ _ _ p' shorter valid parsed
      exact ⟨_,.blank blank begins first lexed,by rw [OpenTree.feed, placeText]; exact fed⟩

theorem parsesTokens {input : Bytes} {position : Nat} {p' : Parser} (valid : delims.Valid)
    (parsed : parseFrom 0 input position (.between delims t) = .ok p') :
    ∃ tokens, Lexes delims position input tokens ∧ t.feed tokens = .ok p'.processCurrentText.tree := by
  induction size : input.length using Nat.strongRecOn generalizing input position delims t p' with
  | ind n ih =>
    subst size
    obtain ⟨run,rest,rfl,plain,stop⟩ := plainCut delims input
    by_cases more : run = []
    · subst more
      exact stopParses valid rfl rfl stop (fun rest _ _ _ _ shorter valid parsed => ih _ shorter valid parsed rfl) parsed
    · rw [loopRun more plain] at parsed
      have longer : rest.length ≤ (run ++ rest).length := by
        rw [List.length_append]
        omega
      have flushed : (⟨delims,t,run,position⟩ : Parser).processCurrentText =
          .between delims (t.push (textComponent run position)) := by
        rw [Parser.processCurrentText, if_neg more]
      obtain ⟨tokens,lexed,fed⟩ := stopParses valid flushed rfl stop
        (fun rest _ _ _ _ shorter valid parsed => ih _ (by omega) valid parsed rfl) parsed
      exact ⟨_,.text run more plain stop lexed,by rw [OpenTree.feed, placeText]; exact fed⟩

theorem tokensParse {input : Bytes} {position : Nat} {tokens : List Component} {t' : OpenTree} (valid : delims.Valid)
    (lexed : Lexes delims position input tokens) {p : Parser} (flushed : p.processCurrentText = .between delims t)
    (same : p.delimSet = delims) (between : p = .between delims t ∨ ¬ Ordinary delims input)
    (fed : t.feed tokens = .ok t') : finished (parseFrom 0 input position p) = .ok t' := by
  induction lexed generalizing t p with
  | done delims position =>
    cases fed
    rw [parseFrom, finished, Except.map, flushed]
    rfl
  | blank blank noTag first next ih =>
    rw [OpenTree.feed, placeText] at fed
    rw [loopBlank flushed same noTag first]
    exact ih valid rfl rfl (.inl rfl) fed
  | text run more plain stop next ih =>
    obtain rfl : p = .between _ t := by
      rcases between with here | other
      · exact here
      · exact absurd (plain [] run rfl more) other
    rw [OpenTree.feed, placeText] at fed
    rw [loopRun more plain]
    exact ih valid (by rw [Parser.processCurrentText, if_neg more]) rfl (.inr stop) fed
  | tag front tag begins read size next ih =>
    rw [OpenTree.feed] at fed
    split at fed
    · cases fed
    · rename_i placed
      obtain ⟨length,_,size',_⟩ := readTagSize read
      have some := List.length_pos_iff.mpr valid.beginning.1
      have more : front ≠ [] := by
        rintro rfl
        rw [size, openingSize, List.length_nil] at size'
        omega
      rw [loopTag flushed same more begins read size placed]
      exact ih (readTagValid valid read) rfl rfl (.inl rfl) fed

end Loop

section Nesting

theorem lexesLeaves {delims : DelimiterSet} {position : Nat} {input : Bytes} {tokens : List Component}
    (lexed : Lexes delims position input tokens) : ∀ token ∈ tokens, token.children = [] := by
  induction lexed with
  | done => simp
  | blank blank noTag first next ih => exact List.forall_mem_cons.mpr ⟨rfl,ih⟩
  | text run more plain stop next ih => exact List.forall_mem_cons.mpr ⟨rfl,ih⟩
  | tag front tag begins read size next ih =>
    obtain ⟨_,_,_,_,leaf,_⟩ := readTagSize read
    exact List.forall_mem_cons.mpr ⟨leaf,ih⟩

inductive Raw : List Component → List Component → Prop where
  | nil : Raw [] []
  | leaf {tokens tree} (token : Component) (noBegin : token.tag.isSectionBegin = false)
      (noEnd : token.tag.isSectionEnd = false) (leaf : token.children = []) (next : Raw tokens tree) :
      Raw (token :: tokens) (token :: tree)
  | «section» {body children tokens tree} (opening closing : Component)
      (begins : opening.tag.isSectionBegin = true) (ends : closing.tag.isSectionEnd = true)
      (leaf : closing.children = []) (inside : Raw body children) (next : Raw tokens tree) :
      Raw (opening :: body ++ closing :: tokens) (opening.withChildren (children ++ [closing]) :: tree)

theorem beginEnds {tag : Tag} (ends : tag.isSectionEnd = true) : tag.isSectionBegin = false := by
  simp only [Tag.isSectionEnd, decide_eq_true_eq] at ends
  simp [Tag.isSectionBegin, ends]

theorem beginNoEnd {tag : Tag} (begins : tag.isSectionBegin = true) : tag.isSectionEnd = false := by
  simp only [Tag.isSectionBegin, decide_eq_true_eq] at begins
  rcases begins with type | type <;> simp [Tag.isSectionEnd, type]

@[simp] theorem withChildrenTag (c : Component) (children : List Component) : (c.withChildren children).tag = c.tag := by
  cases c
  rfl

@[simp] theorem withChildrenChildren (c : Component) (children : List Component) :
    (c.withChildren children).children = children := by
  cases c
  rfl

@[simp] theorem withChildrenTwice (c : Component) (first last : List Component) :
    (c.withChildren first).withChildren last = c.withChildren last := by
  cases c
  rfl

theorem withChildrenSelf (c : Component) : c.withChildren c.children = c := by
  cases c
  rfl

@[simp] theorem pushChildWith (c child : Component) (children : List Component) :
    (c.withChildren children).pushChild child = c.withChildren (children ++ [child]) := by
  cases c
  rfl

theorem rawAppend {tokens more tree last : List Component} (first : Raw tokens tree) (next : Raw more last) :
    Raw (tokens ++ more) (tree ++ last) := by
  induction first with
  | nil => exact next
  | leaf token noBegin noEnd leaf _ ih => exact .leaf token noBegin noEnd leaf ih
  | «section» opening closing begins ends leaf inside _ _ ih =>
    rw [List.append_assoc, List.cons_append, List.cons_append]
    exact .section opening closing begins ends leaf inside ih

theorem rawNoEnd {tokens tree : List Component} (raw : Raw tokens tree) :
    ∀ c ∈ tree, c.tag.isSectionEnd = false := by
  induction raw with
  | nil => simp
  | leaf token _ noEnd _ _ ih => exact List.forall_mem_cons.mpr ⟨noEnd,ih⟩
  | «section» opening closing begins _ _ _ _ _ ih =>
    refine List.forall_mem_cons.mpr ⟨?_,ih⟩
    rw [withChildrenTag]
    exact beginNoEnd begins

inductive Placed : List Component → OpenTree → Prop where
  | root {tokens root} (raw : Raw tokens root) : Placed tokens ⟨[],root⟩
  | «open» {before tokens children sections root} (opening : Component) (begins : opening.tag.isSectionBegin = true)
      (outer : Placed before ⟨sections,root⟩) (raw : Raw tokens children) :
      Placed (before ++ opening :: tokens) ⟨opening.withChildren children :: sections,root⟩

theorem pushPlaced {tokens more : List Component} {t : OpenTree} {c : Component} (placed : Placed tokens t)
    (raw : Raw more [c]) : Placed (tokens ++ more) (t.push c) := by
  cases placed with
  | root before => exact .root (rawAppend before raw)
  | «open» opening begins outer before =>
    simp only [OpenTree.push, pushChildWith, List.append_assoc, List.cons_append]
    exact .open opening begins outer (rawAppend before raw)

theorem placePlaced {tokens : List Component} {t t' : OpenTree} {token : Component} (placed : Placed tokens t)
    (leaf : token.children = []) (ok : t.place token = .ok t') : Placed (tokens ++ [token]) t' := by
  rw [OpenTree.place] at ok
  split at ok
  · rename_i begins
    cases ok
    have opened := Placed.open token begins placed .nil
    rwa [show token.withChildren [] = token by rw [← leaf, withChildrenSelf]] at opened
  · rename_i noBegin
    split at ok
    · rename_i ends
      cases placed with
      | root => cases ok
      | «open» opening begins outer raw =>
        cases ok
        rw [pushChildWith, List.append_assoc]
        exact pushPlaced outer (.section opening token begins ends leaf raw .nil)
    · rename_i noEnd
      cases ok
      exact pushPlaced placed (.leaf token (by simpa using noBegin) (by simpa using noEnd) leaf .nil)

theorem feedPlaced {before tokens : List Component} {t t' : OpenTree} (placed : Placed before t)
    (leaves : ∀ token ∈ tokens, token.children = []) (fed : t.feed tokens = .ok t') : Placed (before ++ tokens) t' := by
  induction tokens generalizing before t with
  | nil =>
    cases fed
    simpa using placed
  | cons token tokens ih =>
    obtain ⟨head,tail⟩ := List.forall_mem_cons.mp leaves
    rw [OpenTree.feed] at fed
    split at fed
    · cases fed
    · rename_i ok
      simpa using ih (placePlaced placed head ok) tail fed

theorem checkEach {c : Component} {rest tree : List Component} (checked : checkChildren (c :: rest) = .ok tree) :
    ∃ c' rest', checkComponent c = .ok c' ∧ checkChildren rest = .ok rest' ∧ tree = c' :: rest' := by
  rw [checkChildren] at checked
  split at checked
  · cases checked
  · rename_i c' here
    cases later : checkChildren rest with
    | error e =>
      rw [later] at checked
      cases checked
    | ok rest' =>
      rw [later] at checked
      cases checked
      exact ⟨c',rest',here,rfl,rfl⟩

theorem checkBodyInit (children : List Component) (last : Component) :
    checkBody (children ++ [last]) = checkChildren children := by
  induction children with
  | nil => rfl
  | cons c rest ih =>
    cases rest with
    | nil =>
      simp only [List.cons_append, List.nil_append, checkBody, checkChildren]
    | cons d rest =>
      rw [List.cons_append, List.cons_append, checkBody, checkChildren, ← List.cons_append, ih]

theorem checkLeaf {c : Component} (noBegin : c.tag.isSectionBegin = false) (leaf : c.children = []) :
    checkComponent c = .ok c := by
  obtain ⟨text,tag,children,position⟩ := c
  simp only [Component.tag, Component.children] at noBegin leaf
  rw [checkComponent, noBegin, if_neg Bool.false_ne_true, leaf, checkChildren]
  rfl

theorem checkSection (opening closing : Component) (children : List Component)
    (begins : opening.tag.isSectionBegin = true) (ends : closing.tag.isSectionEnd = true) :
    checkComponent (opening.withChildren (children ++ [closing])) =
      if closing.tag.name = opening.tag.name then (checkChildren children).map opening.withChildren
      else .error (.unclosedSection opening.tag.name opening.position) := by
  obtain ⟨text,tag,kids,position⟩ := opening
  simp only [Component.tag] at begins
  rw [Component.withChildren, checkComponent, begins, if_pos rfl, closedBy, List.getLast?_concat, checkBodyInit]
  simp only [ends, Bool.true_and, decide_eq_true_eq]
  rfl

theorem checkOpen {c : Component} (begins : c.tag.isSectionBegin = true)
    (noEnd : ∀ last ∈ c.children, last.tag.isSectionEnd = false) :
    checkComponent c = .error (.unclosedSection c.tag.name c.position) := by
  obtain ⟨text,tag,children,position⟩ := c
  have begins : tag.isSectionBegin = true := begins
  have noEnd : ∀ last ∈ children, last.tag.isSectionEnd = false := noEnd
  rw [checkComponent, begins, if_pos rfl, closedBy]
  cases last : children.getLast? with
  | none => rfl
  | some c =>
    simp only [noEnd c (List.mem_of_getLast? last), Bool.false_and]
    rfl

theorem rawChecked {tokens raw tree : List Component} (shaped : Raw tokens raw)
    (checked : checkChildren raw = .ok tree) : Nested tokens tree := by
  induction shaped generalizing tree with
  | nil =>
    cases checked
    exact .nil
  | leaf token noBegin noEnd leaf _ ih =>
    obtain ⟨_,_,here,later,rfl⟩ := checkEach checked
    rw [checkLeaf noBegin leaf] at here
    cases here
    exact .leaf token noBegin noEnd (ih later)
  | @«section» body children _ _ opening closing begins ends leaf inside _ ihBody ih =>
    obtain ⟨_,_,here,later,rfl⟩ := checkEach checked
    rw [checkSection opening closing _ begins ends] at here
    split at here
    · rename_i same
      cases within : checkChildren children with
      | error e =>
        rw [within] at here
        cases here
      | ok children' =>
        rw [within] at here
        cases here
        exact .section opening closing begins ends same (ihBody within) (ih later)
    · cases here

def StillOpen (c : Component) : Prop :=
  c.tag.isSectionBegin = true ∧ ∀ last ∈ c.children, last.tag.isSectionEnd = false

theorem placedOpen {tokens : List Component} {t : OpenTree} (placed : Placed tokens t) :
    ∀ c ∈ t.sections, StillOpen c := by
  induction placed with
  | root => simp
  | «open» opening begins _ raw ih =>
    refine List.forall_mem_cons.mpr ⟨⟨by rwa [withChildrenTag],?_⟩,ih⟩
    rw [withChildrenChildren]
    exact rawNoEnd raw

theorem outermostOpen {inner : Component} {outer : List Component} (here : StillOpen inner)
    (around : ∀ c ∈ outer, StillOpen c) :
    StillOpen (outer.foldl (fun child comp => comp.pushChild child) inner) := by
  induction outer generalizing inner with
  | nil => exact here
  | cons c outer ih =>
    obtain ⟨⟨begins,noEnd⟩,around⟩ := List.forall_mem_cons.mp around
    have next : StillOpen (c.pushChild inner) := by
      rw [StillOpen, Component.pushChild, withChildrenTag, withChildrenChildren]
      refine ⟨begins,fun last inside => ?_⟩
      rcases List.mem_append.mp inside with inside | inside
      · exact noEnd last inside
      · rw [List.mem_singleton.mp inside]
        exact beginNoEnd here.1
    exact ih next around

theorem checkLast {children tree : List Component} {c : Component} (checked : checkChildren (children ++ [c]) = .ok tree) :
    ∃ c', checkComponent c = .ok c' := by
  induction children generalizing tree with
  | nil =>
    obtain ⟨c',_,here,_⟩ := checkEach checked
    exact ⟨c',here⟩
  | cons d children ih =>
    obtain ⟨_,_,_,later,_⟩ := checkEach checked
    exact ih later

theorem placedClosed {tokens tree : List Component} {t : OpenTree} (placed : Placed tokens t)
    (checked : checkChildren t.close = .ok tree) : Nested tokens tree := by
  cases placed with
  | root raw => exact rawChecked raw checked
  | «open» opening begins outer raw =>
    have still := placedOpen (.open opening begins outer raw)
    obtain ⟨here,around⟩ := List.forall_mem_cons.mp still
    obtain ⟨_,ok⟩ := checkLast checked
    obtain ⟨starts,noEnd⟩ := outermostOpen here around
    rw [checkOpen starts noEnd] at ok
    cases ok

def OpenTree.pushAll (t : OpenTree) (components : List Component) : OpenTree := components.foldl OpenTree.push t

theorem pushAllInner (comp : Component) (sections root children : List Component) :
    OpenTree.pushAll ⟨comp :: sections,root⟩ children = ⟨comp.withChildren (comp.children ++ children) :: sections,root⟩ := by
  induction children generalizing comp with
  | nil => rw [List.append_nil, withChildrenSelf]; rfl
  | cons c children ih =>
    rw [OpenTree.pushAll, List.foldl_cons, OpenTree.push, ← OpenTree.pushAll, ih, Component.pushChild,
      withChildrenChildren, withChildrenTwice, List.append_assoc, List.singleton_append]

theorem pushAllRoot (root children : List Component) : OpenTree.pushAll ⟨[],root⟩ children = ⟨[],root ++ children⟩ := by
  induction children generalizing root with
  | nil => rw [List.append_nil]; rfl
  | cons c children ih =>
    rw [OpenTree.pushAll, List.foldl_cons, OpenTree.push, ← OpenTree.pushAll, ih, List.append_assoc, List.singleton_append]

theorem feedAppend (t : OpenTree) (first next : List Component) :
    t.feed (first ++ next) = (t.feed first).bind fun t => t.feed next := by
  induction first generalizing t with
  | nil => rfl
  | cons token first ih =>
    rw [List.cons_append, OpenTree.feed, OpenTree.feed]
    cases t.place token with
    | error => rfl
    | ok t => exact ih t

theorem rawFed {tokens raw : List Component} (shaped : Raw tokens raw) (leaves : ∀ token ∈ tokens, token.children = [])
    (t : OpenTree) : t.feed tokens = .ok (t.pushAll raw) := by
  induction shaped generalizing t with
  | nil => rfl
  | leaf token noBegin noEnd leaf _ ih =>
    rw [OpenTree.feed, OpenTree.place, noBegin, noEnd, if_neg Bool.false_ne_true, if_neg Bool.false_ne_true]
    exact ih (List.forall_mem_cons.mp leaves).2 (t.push token)
  | @«section» body children tokens tree opening closing begins ends leaf inside _ ihBody ih =>
    rw [List.cons_append] at leaves ⊢
    obtain ⟨bare,leaves⟩ := List.forall_mem_cons.mp leaves
    obtain ⟨inner,rest⟩ := List.forall_mem_append.mp leaves
    rw [OpenTree.feed, OpenTree.place, begins, if_pos rfl]
    simp only
    rw [feedAppend, ihBody inner, pushAllInner, Except.bind, OpenTree.feed, OpenTree.place, ends,
      beginEnds ends, if_neg Bool.false_ne_true, if_pos rfl]
    simp only
    rw [ih (List.forall_mem_cons.mp rest).2, pushChildWith, bare, List.nil_append]
    rfl

theorem nestedRaw {tokens tree : List Component} (nested : Nested tokens tree)
    (leaves : ∀ token ∈ tokens, token.children = []) : ∃ raw, Raw tokens raw ∧ checkChildren raw = .ok tree := by
  induction nested with
  | nil => exact ⟨[],.nil,rfl⟩
  | leaf token noBegin noEnd _ ih =>
    obtain ⟨bare,leaves⟩ := List.forall_mem_cons.mp leaves
    obtain ⟨raw,shaped,checked⟩ := ih leaves
    refine ⟨token :: raw,.leaf token noBegin noEnd bare shaped,?_⟩
    rw [checkChildren, checkLeaf noBegin bare, checked]
    rfl
  | «section» opening closing begins ends same _ _ ihBody ih =>
    rw [List.cons_append] at leaves
    obtain ⟨inner,rest⟩ := List.forall_mem_append.mp (List.forall_mem_cons.mp leaves).2
    obtain ⟨bare,rest⟩ := List.forall_mem_cons.mp rest
    obtain ⟨children,shapedBody,checkedBody⟩ := ihBody inner
    obtain ⟨raw,shaped,checked⟩ := ih rest
    refine ⟨_,.section opening closing begins ends bare shapedBody shaped,?_⟩
    rw [checkChildren, checkSection opening closing _ begins ends, if_pos same, checkedBody, checked]
    rfl

end Nesting

theorem defaultValid : defaultDelimiters.Valid :=
  ⟨validSearchable (by decide) (by decide),validSearchable (by decide) (by decide)⟩

theorem parsedNests {input : Bytes} {tree : List Component} (accepted : parse input = .ok tree) :
    ∃ tokens, Lexes defaultDelimiters 0 input tokens ∧ Nested tokens tree := by
  rw [parse] at accepted
  split at accepted
  · cases accepted
  · rename_i p parsed
    obtain ⟨tokens,lexed,fed⟩ := parsesTokens defaultValid parsed
    have placed := feedPlaced (.root .nil) (lexesLeaves lexed) fed
    exact ⟨tokens,lexed,placedClosed placed accepted⟩

theorem nestedParses {input : Bytes} {tokens tree : List Component} (lexed : Lexes defaultDelimiters 0 input tokens)
    (nested : Nested tokens tree) : parse input = .ok tree := by
  have leaves := lexesLeaves lexed
  obtain ⟨raw,shaped,checked⟩ := nestedRaw nested leaves
  have fed := rawFed shaped leaves ⟨[],[]⟩
  rw [pushAllRoot, List.nil_append] at fed
  have done := tokensParse defaultValid lexed rfl rfl (.inl rfl) fed
  cases parsed : parseFrom 0 input 0 (.between defaultDelimiters ⟨[],[]⟩) with
  | error e =>
    rw [parsed] at done
    cases done
  | ok p =>
    rw [parsed, finished, Except.map, Except.ok.injEq] at done
    rw [parse, parsed]
    simp only [done]
    exact checked

end Uco.Mustache
