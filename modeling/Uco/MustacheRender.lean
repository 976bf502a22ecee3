import Uco.MustacheGrammar
import Uco.Segments

/-! Rendering of templates: the walk over the tree with its line buffer and its stack of contexts,
and, above it, a meaning that knows neither: the events of a template in a context, laid out line
by line. -/
namespace Uco.Mustache
open Segments (segments)

section Model

inductive Data where
  | object (fields : List (Bytes × Data))
  | string (text : Bytes)
  | list (items : List Data)
  | boolTrue
  | boolFalse

def Data.get (data : Data) (name : Bytes) : Option Data :=
  match data with
  | .object fields => fields.lookup name
  | _ => none

def Data.isFalse : Data → Bool
  | .boolFalse => true
  | _ => false

def Data.isEmptyList : Data → Bool
  | .list [] => true
  | _ => false

def Data.getPath : Data → List Bytes → Option Data
  | var, [] => some var
  | var, name :: names =>
    match var.get name with
    | none => none
    | some var => var.getPath names

def dot : UInt8 := 46

def contextGet (items : List Data) (name : Bytes) : Option Data :=
  if name = [dot] then items.head?
  else if dot ∉ name then items.findSome? fun item => item.get name
  else items.findSome? fun item => item.getPath (segments dot name)

def contextGetPartial (items : List Data) (name : Bytes) : Option Data := items.findSome? fun item => item.get name

def escapeByte (ch : UInt8) : Bytes :=
  if ch = 38 then bytes "&amp;"
  else if ch = 60 then bytes "&lt;"
  else if ch = 62 then bytes "&gt;"
  else if ch = 34 then bytes "&quot;"
  else if ch = 39 then bytes "&apos;"
  else [ch]

def htmlEscape (s : Bytes) : Bytes := s.flatMap escapeByte

structure LineBuffer where
  data : Bytes
  containedSectionTag : Bool
  deriving DecidableEq, Repr

def onlyWhitespace (data : Bytes) : Bool := data.all fun ch => ch = 32 || ch = 9

structure Page where
  output : Bytes
  lineBuffer : LineBuffer
  deriving DecidableEq, Repr

def Page.renderCurrentLine (page : Page) (newline : Bytes) : Page :=
  ⟨if page.lineBuffer.containedSectionTag && onlyWhitespace page.lineBuffer.data then page.output
    else page.output ++ page.lineBuffer.data ++ newline,⟨[],false⟩⟩

def Page.renderResult (page : Page) (text : Bytes) : Page :=
  { page with lineBuffer := { page.lineBuffer with data := page.lineBuffer.data ++ text } }

def Page.markSection (page : Page) : Page :=
  { page with lineBuffer := { page.lineBuffer with containedSectionTag := true } }

structure Rendering where
  page : Page
  items : List Data
  errorMessage : Option ParseError

inductive Control where
  | walk | stop | skip
  deriving DecidableEq, Repr

def Page.renderVariable (page : Page) (var : Data) (escaped : Bool) : Page :=
  match var with
  | .string text => page.renderResult (if escaped then htmlEscape text else text)
  | _ => page

def isNewline (text : Bytes) : Bool := text = [13,10] || text = [10] || text = [13]

abbrev Walked := Option (Control × Rendering)

def renderTurn (children : Rendering → Walked) (pushed : Option Data) (r : Rendering) : Option Rendering :=
  match children { r with page := r.page.markSection, items := pushed.toList ++ r.items } with
  | none => none
  | some (_,inner) =>
    some { inner with page := inner.page.markSection, items := inner.items.drop pushed.toList.length }

def renderItems (children : Rendering → Walked) : List Data → Rendering → Option Rendering
  | [], r => some r
  | item :: rest, r =>
    match renderTurn children (some item) r with
    | none => none
    | some r => renderItems children rest r

def renderSection (children : Rendering → Walked) (var : Option Data) (r : Rendering) : Option Rendering :=
  match var with
  | some (.list (item :: items)) => renderItems children (item :: items) r
  | var => renderTurn children var r

/- One component. A text that serves as a template is rendered by inner; none stands for a nesting
that never ends. -/
def renderComponent (inner : Bytes → Rendering → Option (Rendering × Option ParseError)) (children : Rendering → Walked)
    (text : Bytes) (tag : Tag) (r : Rendering) : Walked :=
  match tag.type with
  | .text =>
    some (.walk,{ r with page := if isNewline text then r.page.renderCurrentLine text else r.page.renderResult text })
  | .variableTag | .unescapedVariable =>
    match contextGet r.items tag.name with
    | none => some (.walk,r)
    | some var => some (.walk,{ r with page := r.page.renderVariable var (tag.type = .variableTag) })
  | .sectionBegin =>
    match contextGet r.items tag.name with
    | none => some (.skip,r)
    | some var =>
      if var.isFalse || var.isEmptyList then some (.skip,r)
      else (renderSection children (some var) r).map (Control.skip,·)
  | .sectionBeginInverted =>
    match contextGet r.items tag.name with
    | none => (renderSection children none r).map (Control.skip,·)
    | some var =>
      if var.isFalse || var.isEmptyList then (renderSection children (some var) r).map (Control.skip,·)
      else some (.skip,r)
  | .partialTag =>
    match contextGetPartial r.items tag.name with
    | some (.string text) =>
      match inner text r with
      | none => none
      | some (r,none) => some (.walk,r)
      | some (r,some e) => some (.stop,{ r with errorMessage := some e })
    | _ => some (.walk,r)
  | .sectionEnd | .comment | .setDelimiter => some (.walk,r)

section Walk
variable (inner : Bytes → Rendering → Option (Rendering × Option ParseError))

mutual

def walk : Component → Rendering → Walked
  | .mk text tag children _, r =>
    match renderComponent inner (fun r => walkChildren children r) text tag r with
    | none => none
    | some (.stop,r) => some (.stop,r)
    | some (.skip,r) => some (.walk,r)
    | some (.walk,r) => walkChildren children r

def walkChildren : List Component → Rendering → Walked
  | [], r => some (.walk,r)
  | child :: rest, r =>
    match walk child r with
    | none => none
    | some (.walk,r) => walkChildren rest r
    | some (control,r) => some (control,r)

end

end Walk

def renderPartial : Nat → Bytes → Rendering → Option (Rendering × Option ParseError)
  | 0, _, _ => none
  | fuel + 1, text, r =>
    match parse text with
    | .error e => some (r,some e)
    | .ok components =>
      match walkChildren (renderPartial fuel) components { r with errorMessage := none } with
      | none => none
      | some (_,done) => some ({ done with errorMessage := r.errorMessage },done.errorMessage)

def render (fuel : Nat) (components : List Component) (data : Data) : Option Bytes :=
  match walkChildren (renderPartial fuel) components ⟨⟨[],⟨[],false⟩⟩,[data],none⟩ with
  | none => none
  | some (_,r) => some (r.page.renderCurrentLine []).output

def mustache (fuel : Nat) (input : Bytes) (data : Data) : Option Bytes :=
  match parse input with
  | .error _ => some []
  | .ok components => render fuel components data

end Model

section Meaning

inductive Event where
  | text (text : Bytes)
  | newline (text : Bytes)
  | sectionTag
  deriving DecidableEq, Repr

structure Meaning where
  control : Control
  events : List Event
  error : Option ParseError

abbrev Meant := Option Meaning

def meansVariable (var : Option Data) (escaped : Bool) : List Event :=
  match var with
  | some (.string text) => [.text (if escaped then htmlEscape text else text)]
  | _ => []

def meansTurn (children : List Data → Meant) (pushed : Option Data) (items : List Data) : Meant :=
  (children (pushed.toList ++ items)).map fun m => ⟨.skip,.sectionTag :: m.events ++ [.sectionTag],m.error⟩

def meansItems (children : List Data → Meant) (items : List Data) : List Data → Meant
  | [] => some ⟨.skip,[],none⟩
  | item :: rest =>
    match meansTurn children (some item) items with
    | none => none
    | some first => (meansItems children items rest).map fun m => ⟨.skip,first.events ++ m.events,m.error.or first.error⟩

def meansSection (children : List Data → Meant) (var : Option Data) (items : List Data) : Meant :=
  match var with
  | some (.list (item :: rest)) => meansItems children items (item :: rest)
  | var => meansTurn children var items

def meansComponent (inner : Bytes → List Data → Option (List Event × Option ParseError)) (children : List Data → Meant)
    (text : Bytes) (tag : Tag) (items : List Data) : Meant :=
  match tag.type with
  | .text => some ⟨.walk,[if isNewline text then .newline text else .text text],none⟩
  | .variableTag | .unescapedVariable =>
    some ⟨.walk,meansVariable (contextGet items tag.name) (tag.type = .variableTag),none⟩
  | .sectionBegin =>
    match contextGet items tag.name with
    | none => some ⟨.skip,[],none⟩
    | some var =>
      if var.isFalse || var.isEmptyList then some ⟨.skip,[],none⟩ else meansSection children (some var) items
  | .sectionBeginInverted =>
    match contextGet items tag.name with
    | none => meansSection children none items
    | some var =>
      if var.isFalse || var.isEmptyList then meansSection children (some var) items else some ⟨.skip,[],none⟩
  | .partialTag =>
    match contextGetPartial items tag.name with
    | some (.string text) =>
      (inner text items).map fun m => ⟨if m.2 = none then .walk else .stop,m.1,m.2⟩
    | _ => some ⟨.walk,[],none⟩
  | .sectionEnd | .comment | .setDelimiter => some ⟨.walk,[],none⟩

def Meaning.behind (first next : Meaning) : Meaning := ⟨next.control,first.events ++ next.events,next.error.or first.error⟩

section Tree
variable (inner : Bytes → List Data → Option (List Event × Option ParseError))

mutual

def means : Component → List Data → Meant
  | .mk text tag children _, items =>
    match meansComponent inner (fun items => meansChildren children items) text tag items with
    | none => none
    | some m =>
      match m.control with
      | .stop => some m
      | .skip => some { m with control := .walk }
      | .walk => (meansChildren children items).map m.behind

def meansChildren : List Component → List Data → Meant
  | [], _ => some ⟨.walk,[],none⟩
  | child :: rest, items =>
    match means child items with
    | none => none
    | some m => if m.control = .walk then (meansChildren rest items).map m.behind else some m

end

end Tree

def meansPartial : Nat → Bytes → List Data → Option (List Event × Option ParseError)
  | 0, _, _ => none
  | fuel + 1, text, items =>
    match parse text with
    | .error e => some ([],some e)
    | .ok components => (meansChildren (meansPartial fuel) components items).map fun m => (m.events,m.error)

structure Line where
  data : Bytes
  tagged : Bool
  newline : Bytes
  deriving DecidableEq, Repr

def eventLines : List Event → List Line
  | [] => [⟨[],false,[]⟩]
  | .newline text :: rest => ⟨[],false,text⟩ :: eventLines rest
  | .text text :: rest =>
    match eventLines rest with
    | [] => []
    | line :: lines => { line with data := text ++ line.data } :: lines
  | .sectionTag :: rest =>
    match eventLines rest with
    | [] => []
    | line :: lines => { line with tagged := true } :: lines

def Line.shown (line : Line) : Bytes :=
  if line.tagged && onlyWhitespace line.data then [] else line.data ++ line.newline

def layout (events : List Event) : Bytes := (eventLines events).flatMap Line.shown

end Meaning

section Refinement

def Page.emit (page : Page) : Event → Page
  | .text text => page.renderResult text
  | .newline text => page.renderCurrentLine text
  | .sectionTag => page.markSection

def Page.emitAll (page : Page) (events : List Event) : Page := events.foldl Page.emit page

@[simp] theorem emitAllNil (page : Page) : page.emitAll [] = page := rfl

@[simp] theorem emitAllCons (page : Page) (event : Event) (events : List Event) :
    page.emitAll (event :: events) = (page.emit event).emitAll events := rfl

@[simp] theorem emitAllAppend (page : Page) (first next : List Event) :
    page.emitAll (first ++ next) = (page.emitAll first).emitAll next := List.foldl_append

def Rendering.after (r : Rendering) (m : Meaning) : Rendering :=
  ⟨r.page.emitAll m.events,r.items,m.error.or r.errorMessage⟩

@[simp] theorem afterBehind (r : Rendering) (first next : Meaning) :
    r.after (first.behind next) = (r.after first).after next := by
  simp [Rendering.after, Meaning.behind, Option.or_assoc]

def Refines (children : Rendering → Walked) (meaning : List Data → Meant) : Prop :=
  ∀ r, children r = (meaning r.items).map fun m => (m.control,r.after m)

def InnerRefines (inner : Bytes → Rendering → Option (Rendering × Option ParseError))
    (meaning : Bytes → List Data → Option (List Event × Option ParseError)) : Prop :=
  ∀ text r, inner text r = (meaning text r.items).map fun m => ({ r with page := r.page.emitAll m.1 },m.2)

variable {children : Rendering → Walked} {meaning : List Data → Meant}

theorem turnRefines (refined : Refines children meaning) (pushed : Option Data) (r : Rendering) :
    renderTurn children pushed r = (meansTurn meaning pushed r.items).map r.after := by
  rw [renderTurn, refined, meansTurn]
  simp only
  cases meaning (pushed.toList ++ r.items) with
  | none => rfl
  | some m => simp [Rendering.after, Page.emit]

theorem itemsRefine (refined : Refines children meaning) (list : List Data) (r : Rendering) :
    renderItems children list r = (meansItems meaning r.items list).map r.after := by
  induction list generalizing r with
  | nil => simp [renderItems, meansItems, Rendering.after]
  | cons item rest ih =>
    rw [renderItems, turnRefines refined, meansItems]
    cases meansTurn meaning (some item) r.items with
    | none => rfl
    | some first =>
      simp only [Option.map_some]
      rw [ih, show (r.after first).items = r.items from rfl, Option.map_map]
      congr 1
      funext next
      exact (afterBehind r first next).symm

theorem sectionRefines (refined : Refines children meaning) (var : Option Data) (r : Rendering) :
    renderSection children var r = (meansSection meaning var r.items).map r.after := by
  rw [renderSection.eq_def, meansSection.eq_def]
  split
  · exact itemsRefine refined _ r
  · exact turnRefines refined _ r

theorem turnSkips {pushed : Option Data} {items : List Data} {m : Meaning}
    (turn : meansTurn meaning pushed items = some m) : m.control = .skip := by
  obtain ⟨_,_,rfl⟩ := Option.map_eq_some_iff.mp turn
  rfl

theorem itemsSkip {list items : List Data} {m : Meaning} (meant : meansItems meaning items list = some m) :
    m.control = .skip := by
  cases list with
  | nil =>
    cases meant
    rfl
  | cons item rest =>
    rw [meansItems] at meant
    split at meant
    · cases meant
    · obtain ⟨_,_,rfl⟩ := Option.map_eq_some_iff.mp meant
      rfl

theorem sectionSkips {var : Option Data} {items : List Data} {m : Meaning}
    (meant : meansSection meaning var items = some m) : m.control = .skip := by
  rw [meansSection.eq_def] at meant
  split at meant
  · exact itemsSkip meant
  · exact turnSkips meant

theorem sectionComponent (refined : Refines children meaning) (var : Option Data) (r : Rendering) :
    (renderSection children var r).map (Control.skip,·) =
      (meansSection meaning var r.items).map fun m => (m.control,r.after m) := by
  rw [sectionRefines refined, Option.map_map]
  refine Option.map_congr fun m meant => ?_
  rw [Function.comp_apply, sectionSkips meant]

theorem afterNothing (r : Rendering) (control : Control) : r.after ⟨control,[],none⟩ = r := by
  simp [Rendering.after]

variable {inner : Bytes → Rendering → Option (Rendering × Option ParseError)}
  {innerMeaning : Bytes → List Data → Option (List Event × Option ParseError)}

theorem variableRefines (name : Bytes) (escaped : Bool) (r : Rendering) :
    (match contextGet r.items name with
      | none => some (Control.walk,r)
      | some var => some (.walk,{ r with page := r.page.renderVariable var escaped })) =
    some (.walk,r.after ⟨.walk,meansVariable (contextGet r.items name) escaped,none⟩) := by
  cases contextGet r.items name with
  | none => simp [meansVariable, Rendering.after]
  | some var => cases var <;> simp [meansVariable, Rendering.after, Page.renderVariable, Page.emit]

theorem componentRefines (refinedInner : InnerRefines inner innerMeaning) (refined : Refines children meaning)
    (text : Bytes) (tag : Tag) (r : Rendering) :
    renderComponent inner children text tag r =
      (meansComponent innerMeaning meaning text tag r.items).map fun m => (m.control,r.after m) := by
  rw [renderComponent.eq_def, meansComponent.eq_def]
  cases tag.type with
  | text =>
    simp only [Option.map_some, Rendering.after, emitAllCons, emitAllNil, Option.none_or]
    split <;> rfl
  | variableTag => exact variableRefines tag.name _ r
  | unescapedVariable => exact variableRefines tag.name _ r
  | sectionBegin =>
    cases contextGet r.items tag.name with
    | none => simp [afterNothing]
    | some var =>
      simp only
      split
      · simp [afterNothing]
      · exact sectionComponent refined (some var) r
  | sectionBeginInverted =>
    cases contextGet r.items tag.name with
    | none => exact sectionComponent refined none r
    | some var =>
      simp only
      split
      · exact sectionComponent refined (some var) r
      · simp [afterNothing]
  | partialTag =>
    simp only
    split
    · rw [refinedInner]
      rename_i text _
      cases innerMeaning text r.items with
      | none => rfl
      | some m =>
        obtain ⟨events,error⟩ := m
        cases error <;> simp [Rendering.after]
    · simp [afterNothing]
  | sectionEnd => simp [afterNothing]
  | comment => simp [afterNothing]
  | setDelimiter => simp [afterNothing]

mutual

theorem walkRefines (refinedInner : InnerRefines inner innerMeaning) :
    ∀ (component : Component) (r : Rendering),
      walk inner component r = (means innerMeaning component r.items).map fun m => (m.control,r.after m)
  | .mk text tag children _, r => by
    rw [walk, means, componentRefines refinedInner (walkChildrenRefine refinedInner children)]
    cases meansComponent innerMeaning (fun items => meansChildren innerMeaning children items) text tag r.items with
    | none => rfl
    | some m =>
      obtain ⟨control,events,error⟩ := m
      cases control with
      | walk =>
        simp only [Option.map_some]
        rw [walkChildrenRefine refinedInner children, Option.map_map]
        refine congrArg₂ Option.map (funext fun next => ?_) rfl
        exact congrArg (Prod.mk next.control) (afterBehind r _ next).symm
      | stop => rfl
      | skip => rfl

theorem walkChildrenRefine (refinedInner : InnerRefines inner innerMeaning) :
    ∀ (components : List Component), Refines (walkChildren inner components) (meansChildren innerMeaning components)
  | [], r => by simp [walkChildren, meansChildren, afterNothing]
  | child :: rest, r => by
    rw [walkChildren, meansChildren, walkRefines refinedInner child]
    cases means innerMeaning child r.items with
    | none => rfl
    | some m =>
      obtain ⟨control,events,error⟩ := m
      cases control with
      | walk =>
        simp only [Option.map_some, if_pos]
        rw [walkChildrenRefine refinedInner rest, Option.map_map]
        refine congrArg₂ Option.map (funext fun next => ?_) rfl
        exact congrArg (Prod.mk next.control) (afterBehind r _ next).symm
      | stop => rfl
      | skip => rfl

end

theorem partialRefines (fuel : Nat) : InnerRefines (renderPartial fuel) (meansPartial fuel) := by
  induction fuel with
  | zero => exact fun _ _ => rfl
  | succ fuel ih =>
    intro text r
    rw [renderPartial, meansPartial]
    cases parse text with
    | error e => rfl
    | ok components =>
      simp only
      rw [walkChildrenRefine ih]
      cases meansChildren (meansPartial fuel) components r.items with
      | none => rfl
      | some m => simp [Rendering.after]

def Line.within (line : Line) (buffer : LineBuffer) : Line :=
  ⟨buffer.data ++ line.data,buffer.containedSectionTag || line.tagged,line.newline⟩

theorem linesMore (events : List Event) : ∃ line lines, eventLines events = line :: lines := by
  induction events with
  | nil => exact ⟨_,_,rfl⟩
  | cons event rest ih =>
    obtain ⟨line,lines,cut⟩ := ih
    cases event <;> simp [eventLines, cut]

theorem emitLayout (events : List Event) (page : Page) {line : Line} {lines : List Line}
    (cut : eventLines events = line :: lines) :
    ((page.emitAll events).renderCurrentLine []).output =
      page.output ++ ((line.within page.lineBuffer) :: lines).flatMap Line.shown := by
  induction events generalizing page line lines with
  | nil =>
    cases cut
    simp only [emitAllNil, Page.renderCurrentLine, Line.within, List.append_nil, Bool.or_false, List.flatMap_cons,
      List.flatMap_nil, Line.shown]
    split <;> simp
  | cons event rest ih =>
    obtain ⟨next,more,later⟩ := linesMore rest
    rw [emitAllCons, ih (page.emit event) later]
    cases event with
    | text text =>
      simp only [eventLines, later, List.cons.injEq] at cut
      obtain ⟨rfl,rfl⟩ := cut
      simp [Page.emit, Page.renderResult, Line.within]
    | newline text =>
      simp only [eventLines, List.cons.injEq] at cut
      obtain ⟨rfl,rfl⟩ := cut
      rw [later]
      simp only [Page.emit, Page.renderCurrentLine, Line.within, List.nil_append, List.append_nil, Bool.false_or,
        Bool.or_false, List.flatMap_cons, Line.shown]
      split <;> simp
    | sectionTag =>
      simp only [eventLines, later, List.cons.injEq] at cut
      obtain ⟨rfl,rfl⟩ := cut
      simp [Page.emit, Page.markSection, Line.within]

end Refinement

theorem renderLaidOut (fuel : Nat) (components : List Component) (data : Data) :
    render fuel components data =
      (meansChildren (meansPartial fuel) components [data]).map fun m => layout m.events := by
  rw [render, walkChildrenRefine (partialRefines fuel)]
  cases meansChildren (meansPartial fuel) components [data] with
  | none => rfl
  | some m =>
    obtain ⟨line,lines,cut⟩ := linesMore m.events
    simp only [Option.map_some, Rendering.after, Option.some.injEq]
    rw [emitLayout m.events _ cut, layout, cut]
    simp [Line.within]

/- A template shows the events it means, line by line, for every nesting of the texts it includes. -/
theorem renderMeans (fuel : Nat) (input : Bytes) (data : Data) :
    mustache fuel input data = match parse input with
      | .error _ => some []
      | .ok components => (meansChildren (meansPartial fuel) components [data]).map fun m => layout m.events := by
  unfold mustache
  split
  · rfl
  · exact renderLaidOut fuel _ data

end Uco.Mustache
