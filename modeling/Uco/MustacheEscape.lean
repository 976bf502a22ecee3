import Uco.MustacheRender
import Mathlib.Data.List.Forall2

/-! Escaping of the values on a page. What a value escapes to reads back as the value and holds no
markup; so the markup of a page comes from its template, whatever the texts of the data are. -/
namespace Uco.Mustache
open Segments (segments)

section Entities

def entities : List (Bytes × UInt8) :=
  [(bytes "&amp;",38),(bytes "&lt;",60),(bytes "&gt;",62),(bytes "&quot;",34),(bytes "&apos;",39)]

def unescapeFrom : Nat → Bytes → Bytes
  | _, [] => []
  | skip + 1, _ :: rest => unescapeFrom skip rest
  | 0, c :: rest =>
    match entities.find? fun e => e.1.isPrefixOf (c :: rest) with
    | some (entity,ch) => ch :: unescapeFrom (entity.length - 1) rest
    | none => c :: unescapeFrom 0 rest

def unescape (text : Bytes) : Bytes := unescapeFrom 0 text

def isMarkup (c : UInt8) : Bool := c = 60 || c = 62 || c = 34 || c = 39

def markup (text : Bytes) : Bytes := text.filter isMarkup

theorem noEntity {c : UInt8} (other : c ≠ 38) (rest : Bytes) :
    entities.find? (fun e => e.1.isPrefixOf (c :: rest)) = none := by
  have start (tail : Bytes) : (38 :: tail).isPrefixOf (c :: rest) = false := by
    rw [List.isPrefixOf, beq_false_of_ne (Ne.symm other), Bool.false_and]
  have shape : entities = [(38 :: [97,109,112,59],38),(38 :: [108,116,59],60),(38 :: [103,116,59],62),
    (38 :: [113,117,111,116,59],34),(38 :: [97,112,111,115,59],39)] := by decide
  rw [shape]
  simp [List.find?, start]

theorem unescapeByte (ch : UInt8) (rest : Bytes) : unescape (escapeByte ch ++ rest) = ch :: unescape rest := by
  by_cases special : ch = 38 ∨ ch = 60 ∨ ch = 62 ∨ ch = 34 ∨ ch = 39
  · rcases special with rfl | rfl | rfl | rfl | rfl <;> rfl
  · simp only [not_or] at special
    obtain ⟨amp,lt,gt,quot,apos⟩ := special
    rw [escapeByte, if_neg amp, if_neg lt, if_neg gt, if_neg quot, if_neg apos, List.singleton_append, unescape,
      unescapeFrom, noEntity amp]
    rfl

theorem unescapeEscaped (s : Bytes) : unescape (htmlEscape s) = s := by
  induction s with
  | nil => rfl
  | cons ch s ih => rw [htmlEscape, List.flatMap_cons, unescapeByte, ← htmlEscape, ih]

@[simp] theorem markupNil : markup [] = [] := rfl

@[simp] theorem markupAppend (a b : Bytes) : markup (a ++ b) = markup a ++ markup b := List.filter_append a b

theorem markupByte (ch : UInt8) : markup (escapeByte ch) = [] := by
  by_cases special : ch = 38 ∨ ch = 60 ∨ ch = 62 ∨ ch = 34 ∨ ch = 39
  · rcases special with rfl | rfl | rfl | rfl | rfl <;> decide
  · simp only [not_or] at special
    obtain ⟨amp,lt,gt,quot,apos⟩ := special
    rw [escapeByte, if_neg amp, if_neg lt, if_neg gt, if_neg quot, if_neg apos]
    simp [markup, isMarkup, lt, gt, quot, apos]

theorem markupEscaped (s : Bytes) : markup (htmlEscape s) = [] := by
  induction s with
  | nil => rfl
  | cons ch s ih => rw [htmlEscape, List.flatMap_cons, markupAppend, markupByte, ← htmlEscape, ih, List.append_nil]

/- What is shown of a text reads back as the text, and opens, closes and quotes nothing. -/
theorem escapeFaithful : Function.LeftInverse unescape htmlEscape ∧ ∀ s, markup (htmlEscape s) = [] :=
  ⟨unescapeEscaped,markupEscaped⟩

end Entities

inductive SameShape : Data → Data → Prop where
  | object {fields fields' : List (Bytes × Data)} (names : fields.map Prod.fst = fields'.map Prod.fst)
      (values : List.Forall₂ SameShape (fields.map Prod.snd) (fields'.map Prod.snd)) :
      SameShape (.object fields) (.object fields')
  | string (text text' : Bytes) : SameShape (.string text) (.string text')
  | list {items items' : List Data} (each : List.Forall₂ SameShape items items') : SameShape (.list items) (.list items')
  | boolTrue : SameShape .boolTrue .boolTrue
  | boolFalse : SameShape .boolFalse .boolFalse

mutual

def escapedOnly : Component → Bool
  | .mk _ tag children _ => tag.type ≠ .unescapedVariable && tag.type ≠ .partialTag && allEscaped children

def allEscaped : List Component → Bool
  | [] => true
  | child :: rest => escapedOnly child && allEscaped rest

end

section Lookup

theorem sameLookup {fields fields' : List (Bytes × Data)} (names : fields.map Prod.fst = fields'.map Prod.fst)
    (values : List.Forall₂ SameShape (fields.map Prod.snd) (fields'.map Prod.snd)) (name : Bytes) :
    Option.Rel SameShape (fields.lookup name) (fields'.lookup name) := by
  induction fields generalizing fields' with
  | nil =>
    obtain rfl : fields' = [] := List.map_eq_nil_iff.mp names.symm
    exact .none
  | cons field rest ih =>
    cases fields' with
    | nil => cases names
    | cons field' rest' =>
      obtain ⟨key,var⟩ := field
      obtain ⟨key',var'⟩ := field'
      simp only [List.map_cons, List.cons.injEq] at names
      obtain ⟨rfl,names⟩ := names
      simp only [List.map_cons, List.forall₂_cons] at values
      rw [List.lookup_cons, List.lookup_cons]
      cases name == key with
      | true => exact .some values.1
      | false => exact ih names values.2

theorem sameGet {d d' : Data} (same : SameShape d d') (name : Bytes) : Option.Rel SameShape (d.get name) (d'.get name) := by
  cases same with
  | object names values => exact sameLookup names values name
  | string => exact .none
  | list => exact .none
  | boolTrue => exact .none
  | boolFalse => exact .none

theorem sameGetPath {d d' : Data} (same : SameShape d d') (names : List Bytes) :
    Option.Rel SameShape (d.getPath names) (d'.getPath names) := by
  induction names generalizing d d' with
  | nil => exact .some same
  | cons name names ih =>
    rw [Data.getPath, Data.getPath]
    have found := sameGet same name
    cases here : d.get name with
    | none =>
      rw [here] at found
      cases there : d'.get name with
      | none => exact .none
      | some => rw [there] at found; cases found
    | some var =>
      rw [here] at found
      cases there : d'.get name with
      | none => rw [there] at found; cases found
      | some var' =>
        rw [there] at found
        cases found with
        | some same => exact ih same

theorem sameFirst {items items' : List Data} (each : List.Forall₂ SameShape items items')
    {find : Data → Option Data} (finds : ∀ d d', SameShape d d' → Option.Rel SameShape (find d) (find d')) :
    Option.Rel SameShape (items.findSome? find) (items'.findSome? find) := by
  induction each with
  | nil => exact .none
  | @cons d d' rest rest' same _ ih =>
    rw [List.findSome?_cons, List.findSome?_cons]
    have found := finds d d' same
    cases here : find d with
    | none =>
      rw [here] at found
      cases there : find d' with
      | none => exact ih
      | some => rw [there] at found; cases found
    | some var =>
      rw [here] at found
      cases there : find d' with
      | none => rw [there] at found; cases found
      | some var' =>
        rw [there] at found
        exact found

theorem sameContext {items items' : List Data} (each : List.Forall₂ SameShape items items') (name : Bytes) :
    Option.Rel SameShape (contextGet items name) (contextGet items' name) := by
  rw [contextGet, contextGet]
  split
  · cases each with
    | nil => exact .none
    | cons same _ => exact .some same
  split
  · exact sameFirst each fun d d' same => sameGet same name
  · exact sameFirst each fun d d' same => sameGetPath same _

theorem sameHidden {d d' : Data} (same : SameShape d d') :
    (d.isFalse || d.isEmptyList) = (d'.isFalse || d'.isEmptyList) := by
  cases same with
  | list each => cases each <;> rfl
  | object => rfl
  | string => rfl
  | boolTrue => rfl
  | boolFalse => rfl

end Lookup

section Markup

def Event.markup : Event → Bytes
  | .text shown => Mustache.markup shown
  | .newline shown => Mustache.markup shown
  | .sectionTag => []

def eventsMarkup (events : List Event) : Bytes := events.flatMap Event.markup

@[simp] theorem eventsMarkupAppend (first next : List Event) :
    eventsMarkup (first ++ next) = eventsMarkup first ++ eventsMarkup next := List.flatMap_append

def PlainNewlines (events : List Event) : Prop := ∀ text, Event.newline text ∈ events → markup text = []

theorem plainAppend {first next : List Event} (head : PlainNewlines first) (tail : PlainNewlines next) :
    PlainNewlines (first ++ next) := by
  intro text inside
  rcases List.mem_append.mp inside with here | there
  · exact head text here
  · exact tail text there

theorem whitespaceMarkup {data : Bytes} (blanks : onlyWhitespace data = true) : markup data = [] := by
  refine List.filter_eq_nil_iff.mpr fun c inside => ?_
  have blank := List.all_eq_true.mp blanks c inside
  simp only [Bool.or_eq_true, decide_eq_true_eq] at blank
  rcases blank with rfl | rfl <;> decide

theorem shownMarkup {line : Line} (plain : markup line.newline = []) : markup line.shown = markup line.data := by
  rw [Line.shown]
  split
  · rename_i hidden
    rw [whitespaceMarkup (Bool.and_eq_true_iff.mp hidden).2, markupNil]
  · rw [markupAppend, plain, List.append_nil]

theorem linesMarkup {events : List Event} (plain : PlainNewlines events) :
    (∀ line ∈ eventLines events, markup line.newline = []) ∧
      (eventLines events).flatMap (fun line => markup line.data) = eventsMarkup events := by
  induction events with
  | nil => simp [eventLines, eventsMarkup]
  | cons event rest ih =>
    obtain ⟨newlines,datas⟩ := ih fun text inside => plain text (List.mem_cons_of_mem _ inside)
    obtain ⟨line,lines,cut⟩ := linesMore rest
    rw [cut] at newlines datas
    obtain ⟨head,tail⟩ := List.forall_mem_cons.mp newlines
    rw [List.flatMap_cons] at datas
    cases event with
    | text text =>
      simp only [eventLines, cut]
      refine ⟨List.forall_mem_cons.mpr ⟨head,tail⟩,?_⟩
      rw [List.flatMap_cons, markupAppend, List.append_assoc, datas]
      rfl
    | newline text =>
      have here := plain text List.mem_cons_self
      simp only [eventLines, cut]
      refine ⟨List.forall_mem_cons.mpr ⟨here,newlines⟩,?_⟩
      rw [List.flatMap_cons, List.flatMap_cons, datas, markupNil, List.nil_append, eventsMarkup, eventsMarkup,
        List.flatMap_cons, Event.markup, here, List.nil_append]
    | sectionTag =>
      simp only [eventLines, cut]
      refine ⟨List.forall_mem_cons.mpr ⟨head,tail⟩,?_⟩
      rw [List.flatMap_cons, datas]
      rfl

theorem layoutMarkup {events : List Event} (plain : PlainNewlines events) : markup (layout events) = eventsMarkup events := by
  obtain ⟨newlines,datas⟩ := linesMarkup plain
  rw [← datas, layout]
  generalize eventLines events = lines at newlines
  induction lines with
  | nil => rfl
  | cons line lines ih =>
    obtain ⟨head,tail⟩ := List.forall_mem_cons.mp newlines
    rw [List.flatMap_cons, List.flatMap_cons, markupAppend, shownMarkup head, ih tail]

inductive SameMarkup : Meant → Meant → Prop where
  | both (m m' : Meaning) (control : m.control = m'.control) (events : eventsMarkup m.events = eventsMarkup m'.events)
      (plain : PlainNewlines m.events) (plain' : PlainNewlines m'.events) : SameMarkup (some m) (some m')

def Uniform (children : List Data → Meant) : Prop :=
  ∀ items items', List.Forall₂ SameShape items items' → SameMarkup (children items) (children items')

theorem sameNothing (control : Control) : SameMarkup (some ⟨control,[],none⟩) (some ⟨control,[],none⟩) :=
  .both _ _ rfl rfl (by rintro _ ⟨⟩) (by rintro _ ⟨⟩)

variable {children : List Data → Meant} {items items' : List Data}

theorem turnMarkup (uniform : Uniform children) (each : List.Forall₂ SameShape items items') {pushed pushed' : Option Data}
    (same : Option.Rel SameShape pushed pushed') :
    SameMarkup (meansTurn children pushed items) (meansTurn children pushed' items') := by
  have inside : List.Forall₂ SameShape (pushed.toList ++ items) (pushed'.toList ++ items') := by
    cases same with
    | none => exact each
    | some same => exact .cons same each
  have done := uniform _ _ inside
  rw [meansTurn, meansTurn]
  generalize children (pushed.toList ++ items) = left at done
  generalize children (pushed'.toList ++ items') = right at done
  cases done with
  | both m m' control events plain plain' =>
    have framed {events : List Event} (plain : PlainNewlines events) :
        PlainNewlines (.sectionTag :: events ++ [.sectionTag]) := by
      intro text member
      refine plain text ?_
      simpa using member
    refine .both _ _ rfl ?_ (framed plain) (framed plain')
    simp only [eventsMarkupAppend]
    exact congrArg (· ++ eventsMarkup [Event.sectionTag]) events

theorem behindMarkup {a a' : Meaning} {next next' : Meant} (events : eventsMarkup a.events = eventsMarkup a'.events)
    (plain : PlainNewlines a.events) (plain' : PlainNewlines a'.events) (same : SameMarkup next next') :
    SameMarkup (next.map a.behind) (next'.map a'.behind) := by
  cases same with
  | both m m' control later plainLater plainLater' =>
    refine .both _ _ control ?_ (plainAppend plain plainLater) (plainAppend plain' plainLater')
    rw [Meaning.behind, Meaning.behind, eventsMarkupAppend, eventsMarkupAppend, events, later]

theorem itemsMarkup (uniform : Uniform children) (each : List.Forall₂ SameShape items items') {list list' : List Data}
    (values : List.Forall₂ SameShape list list') :
    SameMarkup (meansItems children items list) (meansItems children items' list') := by
  induction values with
  | nil => exact sameNothing .skip
  | @cons d d' rest rest' same _ ih =>
    have first := turnMarkup uniform each (.some same)
    rw [meansItems, meansItems]
    generalize meansTurn children (some d) items = left at first
    generalize meansTurn children (some d') items' = right at first
    cases first with
    | both m m' control events plain plain' =>
      simp only
      generalize meansItems children items rest = left at ih
      generalize meansItems children items' rest' = right at ih
      cases ih with
      | both n n' _ later plainLater plainLater' =>
        refine .both _ _ rfl ?_ (plainAppend plain plainLater) (plainAppend plain' plainLater')
        rw [eventsMarkupAppend, eventsMarkupAppend, events, later]

theorem sectionMarkup (uniform : Uniform children) (each : List.Forall₂ SameShape items items') {var var' : Option Data}
    (same : Option.Rel SameShape var var') :
    SameMarkup (meansSection children var items) (meansSection children var' items') := by
  cases same with
  | none => exact turnMarkup uniform each .none
  | some same =>
    cases same with
    | list values =>
      cases values with
      | nil => exact turnMarkup uniform each (.some (.list .nil))
      | cons head rest => exact itemsMarkup uniform each (.cons head rest)
    | object names values => exact turnMarkup uniform each (.some (.object names values))
    | string text text' => exact turnMarkup uniform each (.some (.string text text'))
    | boolTrue => exact turnMarkup uniform each (.some .boolTrue)
    | boolFalse => exact turnMarkup uniform each (.some .boolFalse)

theorem variableMarkup {var var' : Option Data} (same : Option.Rel SameShape var var') :
    SameMarkup (some ⟨.walk,meansVariable var true,none⟩) (some ⟨.walk,meansVariable var' true,none⟩) := by
  cases same with
  | none => exact sameNothing .walk
  | some same =>
    cases same with
    | string text text' =>
      refine .both _ _ rfl ?_ (by simp [PlainNewlines, meansVariable]) (by simp [PlainNewlines, meansVariable])
      simp [meansVariable, eventsMarkup, Event.markup, markupEscaped]
    | list => exact sameNothing .walk
    | object => exact sameNothing .walk
    | boolTrue => exact sameNothing .walk
    | boolFalse => exact sameNothing .walk

theorem newlineMarkup {text : Bytes} (newline : isNewline text = true) : markup text = [] := by
  simp only [isNewline, Bool.or_eq_true, decide_eq_true_eq] at newline
  rcases newline with (rfl | rfl) | rfl <;> decide

variable (inner : Bytes → List Data → Option (List Event × Option ParseError))

theorem componentMarkup (uniform : Uniform children) (each : List.Forall₂ SameShape items items') (text : Bytes)
    {tag : Tag} (escaped : tag.type ≠ .unescapedVariable) (own : tag.type ≠ .partialTag) :
    SameMarkup (meansComponent inner children text tag items) (meansComponent inner children text tag items') := by
  have same := sameContext each tag.name
  rw [meansComponent.eq_def, meansComponent.eq_def]
  cases type : tag.type with
  | text =>
    have plain : PlainNewlines [if isNewline text then Event.newline text else .text text] := by
      intro shown inside
      split at inside
      · rename_i newline
        cases List.mem_singleton.mp inside
        exact newlineMarkup newline
      · cases List.mem_singleton.mp inside
    exact .both _ _ rfl rfl plain plain
  | variableTag => exact variableMarkup same
  | unescapedVariable => exact absurd type escaped
  | partialTag => exact absurd type own
  | sectionBegin =>
    simp only
    generalize contextGet items tag.name = left at same
    generalize contextGet items' tag.name = right at same
    cases same with
    | none => exact sameNothing .skip
    | some same =>
      simp only
      rw [sameHidden same]
      split
      · exact sameNothing .skip
      · exact sectionMarkup uniform each (.some same)
  | sectionBeginInverted =>
    simp only
    generalize contextGet items tag.name = left at same
    generalize contextGet items' tag.name = right at same
    cases same with
    | none => exact sectionMarkup uniform each .none
    | some same =>
      simp only
      rw [sameHidden same]
      split
      · exact sectionMarkup uniform each (.some same)
      · exact sameNothing .skip
  | sectionEnd => exact sameNothing .walk
  | comment => exact sameNothing .walk
  | setDelimiter => exact sameNothing .walk

mutual

theorem meansUniform :
    ∀ (component : Component), escapedOnly component = true → Uniform (means inner component)
  | .mk text tag children _, escaped, items, items', each => by
    simp only [escapedOnly, Bool.and_eq_true, decide_eq_true_eq] at escaped
    obtain ⟨⟨escaped,own⟩,within⟩ := escaped
    have below := meansChildrenUniform children within
    have here := componentMarkup inner below each text escaped own
    rw [means, means]
    generalize meansComponent inner (fun items => meansChildren inner children items) text tag items = left at here
    generalize meansComponent inner (fun items => meansChildren inner children items) text tag items' = right at here
    cases here with
    | both m m' control events plain plain' =>
      simp only
      rw [control]
      cases m'.control with
      | walk => exact behindMarkup events plain plain' (below items items' each)
      | stop => exact .both _ _ control events plain plain'
      | skip => exact .both _ _ rfl events plain plain'

theorem meansChildrenUniform :
    ∀ (components : List Component), allEscaped components = true → Uniform (meansChildren inner components)
  | [], _, _, _, _ => by
    rw [meansChildren, meansChildren]
    exact sameNothing .walk
  | child :: rest, escaped, items, items', each => by
    rw [allEscaped, Bool.and_eq_true] at escaped
    have here := meansUniform child escaped.1 items items' each
    rw [meansChildren, meansChildren]
    generalize means inner child items = left at here
    generalize means inner child items' = right at here
    cases here with
    | both m m' control events plain plain' =>
      simp only
      rw [control]
      split
      · exact behindMarkup events plain plain' (meansChildrenUniform rest escaped.2 items items' each)
      · exact .both _ _ control events plain plain'

end

end Markup

/- In a template that shows its values escaped the markup of the page does not depend on the texts
of the data: no value opens a tag, closes one or leaves a quoted attribute. -/
theorem markupFromTemplate (fuel : Nat) {input : Bytes} {components : List Component} (parsed : parse input = .ok components)
    (escaped : allEscaped components = true) {d d' : Data} (same : SameShape d d') :
    ∃ page page', mustache fuel input d = some page ∧ mustache fuel input d' = some page' ∧ markup page = markup page' := by
  have uniform := meansChildrenUniform (meansPartial fuel) components escaped [d] [d'] (.cons same .nil)
  simp only [mustache, parsed]
  rw [renderLaidOut, renderLaidOut]
  generalize meansChildren (meansPartial fuel) components [d] = left at uniform
  generalize meansChildren (meansPartial fuel) components [d'] = right at uniform
  cases uniform with
  | both m m' _ events plain plain' =>
    exact ⟨_,_,rfl,rfl,by rw [layoutMarkup plain, layoutMarkup plain', events]⟩

def greeting : Bytes := bytes "<p>{{name}}</p>"

def named (name : String) : Data := .object [(bytes "name",.string (bytes name))]

theorem greetingParsed : ∃ components, parse greeting = .ok components ∧ allEscaped components = true := by
  have escaped : (parse greeting).toOption.any allEscaped = true := by decide
  cases parsed : parse greeting with
  | error e =>
    rw [parsed] at escaped
    cases escaped
  | ok components =>
    rw [parsed] at escaped
    exact ⟨components,rfl,escaped⟩

theorem greetingMarkup : ∃ page page', mustache 0 greeting (named "Ann") = some page ∧
    mustache 0 greeting (named "</p><script>") = some page' ∧ markup page = markup page' := by
  obtain ⟨components,parsed,escaped⟩ := greetingParsed
  exact markupFromTemplate 0 parsed escaped (.object rfl (.cons (.string _ _) .nil))

end Uco.Mustache
