import Uco.Resp

/-! Templates of pages: the tags of a text, the sections they open and close, and the tree the
parser builds of them. -/
namespace Uco.Mustache
open Resp (decimalText)

section Model

def isspace (c : UInt8) : Bool := c = 32 ∨ (9 ≤ c ∧ c ≤ 13)

def trim (s : Bytes) : Bytes := ((s.dropWhile isspace).reverse.dropWhile isspace).reverse

def find (needle : Bytes) : Bytes → Option Nat
  | [] => if needle = [] then some 0 else none
  | c :: rest => if needle.isPrefixOf (c :: rest) then some 0 else (find needle rest).map (· + 1)

structure DelimiterSet where
  beginning : Bytes
  ending : Bytes
  deriving DecidableEq, Repr

def brace : UInt8 := 123
def closingBrace : UInt8 := 125
def equalsSign : UInt8 := 61

def defaultDelimiters : DelimiterSet := ⟨[brace,brace],[closingBrace,closingBrace]⟩

def DelimiterSet.isDefault (d : DelimiterSet) : Bool := d = defaultDelimiters

inductive TagType where
  | text | variableTag | unescapedVariable | sectionBegin | sectionEnd | sectionBeginInverted | comment | partialTag
  | setDelimiter
  deriving DecidableEq, Repr

structure Tag where
  name : Bytes
  type : TagType
  delimSet : Option DelimiterSet
  deriving DecidableEq, Repr

def Tag.plain : Tag := ⟨[],.text,none⟩

def Tag.isSectionBegin (tag : Tag) : Bool := tag.type = .sectionBegin ∨ tag.type = .sectionBeginInverted

def Tag.isSectionEnd (tag : Tag) : Bool := tag.type = .sectionEnd

inductive Component where
  | mk (text : Bytes) (tag : Tag) (children : List Component) (position : Nat)
  deriving Repr

def Component.text : Component → Bytes
  | .mk text _ _ _ => text

def Component.tag : Component → Tag
  | .mk _ tag _ _ => tag

def Component.children : Component → List Component
  | .mk _ _ children _ => children

def Component.position : Component → Nat
  | .mk _ _ _ position => position

def Component.withChildren : Component → List Component → Component
  | .mk text tag _ position, children => .mk text tag children position

inductive ParseError where
  | unclosedTag (position : Nat)
  | invalidSetDelimiter (position : Nat)
  | unopenedSection (name : Bytes) (position : Nat)
  | unclosedSection (name : Bytes) (position : Nat)
  deriving DecidableEq, Repr

def ParseError.message : ParseError → Bytes
  | .unclosedTag position => bytes "Unclosed tag at " ++ decimalText position
  | .invalidSetDelimiter position => bytes "Invalid set delimiter tag at " ++ decimalText position
  | .unopenedSection name position => bytes "Unopened section \"" ++ name ++ bytes "\" at " ++ decimalText position
  | .unclosedSection name position => bytes "Unclosed section \"" ++ name ++ bytes "\" at " ++ decimalText position

def isSetDelimiterValid (delimiter : Bytes) : Bool := delimiter.all fun ch => !(ch = equalsSign || isspace ch)

def findNonspace (contents : Bytes) (spacepos : Nat) : Option Nat :=
  ((contents.drop (spacepos + 1)).findIdx? (fun ch => ch ≠ 32)).map (spacepos + 1 + ·)

def parseSetDelimiterTag (contents : Bytes) : Option DelimiterSet :=
  -- the smallest legal tag is "=X X="
  if contents.length < 5 then none
  else if contents.getLast? ≠ some equalsSign then none
  else
    let substr := trim ((contents.drop 1).take (contents.length - 2))
    match substr.findIdx? (fun ch => ch = 32) with
    | none => none
    | some spacepos =>
      match findNonspace substr spacepos with
      | none => none
      | some nonspace =>
        if isSetDelimiterValid (substr.take spacepos) && isSetDelimiterValid (substr.drop nonspace) then
          some ⟨substr.take spacepos,substr.drop nonspace⟩
        else none

def tagTypeOf : UInt8 → TagType
  | 35 => .sectionBegin
  | 94 => .sectionBeginInverted
  | 47 => .sectionEnd
  | 62 => .partialTag
  | 38 => .unescapedVariable
  | 33 => .comment
  | _ => .variableTag

def parseTagContents (isUnescapedVar : Bool) (contents : Bytes) : Tag :=
  if isUnescapedVar then ⟨contents,.unescapedVariable,none⟩
  else
    match contents with
    | [] => ⟨[],.variableTag,none⟩
    | c :: name =>
      if tagTypeOf c = .variableTag then ⟨contents,.variableTag,none⟩ else ⟨trim name,tagTypeOf c,none⟩

structure ReadTag where
  comp : Component
  size : Nat
  delimSet : DelimiterSet
  deriving Repr

def isUnescapedVar (delims : DelimiterSet) (input : Bytes) : Bool :=
  delims.isDefault && input.length ≠ 2 && input[delims.beginning.length]? = delims.beginning[0]?

def openingSize (delims : DelimiterSet) (input : Bytes) : Nat :=
  delims.beginning.length + if isUnescapedVar delims input then 1 else 0

def tagDelimiterEnd (delims : DelimiterSet) (input : Bytes) : Bytes :=
  if isUnescapedVar delims input then [closingBrace,closingBrace,closingBrace] else delims.ending

def readTag (delims : DelimiterSet) (input : Bytes) (position : Nat) : Except ParseError ReadTag :=
  let behind := input.drop (openingSize delims input)
  match find (tagDelimiterEnd delims input) behind with
  | none => .error (.unclosedTag position)
  | some length =>
    let size := openingSize delims input + length + (tagDelimiterEnd delims input).length
    let contents := trim (behind.take length)
    if contents.head? = some equalsSign then
      match parseSetDelimiterTag contents with
      | none => .error (.invalidSetDelimiter position)
      | some delims' => .ok ⟨.mk [] ⟨[],.setDelimiter,some delims'⟩ [] position,size,delims'⟩
    else .ok ⟨.mk [] (parseTagContents (isUnescapedVar delims input) contents) [] position,size,delims⟩

def Component.pushChild (comp child : Component) : Component := comp.withChildren (comp.children ++ [child])

structure OpenTree where
  sections : List Component
  root : List Component
  deriving Repr

def OpenTree.push (t : OpenTree) (comp : Component) : OpenTree :=
  match t.sections with
  | [] => ⟨[],t.root ++ [comp]⟩
  | inner :: outer => ⟨inner.pushChild comp :: outer,t.root⟩

def OpenTree.place (t : OpenTree) (comp : Component) : Except ParseError OpenTree :=
  if comp.tag.isSectionBegin then .ok ⟨comp :: t.sections,t.root⟩
  else if comp.tag.isSectionEnd then
    match t.sections with
    | [] => .error (.unopenedSection comp.tag.name comp.position)
    | inner :: outer => .ok (OpenTree.push ⟨outer,t.root⟩ (inner.pushChild comp))
  else .ok (t.push comp)

def OpenTree.close (t : OpenTree) : List Component :=
  match t.sections with
  | [] => t.root
  | inner :: outer => t.root ++ [outer.foldl (fun child comp => comp.pushChild child) inner]

def npos : Nat := 18446744073709551615

structure Parser where
  delimSet : DelimiterSet
  tree : OpenTree
  currentText : Bytes
  currentTextPosition : Nat
  deriving Repr

def Parser.between (delims : DelimiterSet) (tree : OpenTree) : Parser := ⟨delims,tree,[],npos⟩

def textComponent (text : Bytes) (position : Nat) : Component := .mk text .plain [] position

def Parser.processCurrentText (p : Parser) : Parser :=
  if p.currentText = [] then p
  else .between p.delimSet (p.tree.push (textComponent p.currentText p.currentTextPosition))

def Parser.append (p : Parser) (c : UInt8) (position : Nat) : Parser :=
  { p with
    currentText := p.currentText ++ [c]
    currentTextPosition := if p.currentText = [] then position else p.currentTextPosition }

def whitespace : List Bytes := [[13,10],[10],[13],[32],[9]]

def blankAt (input : Bytes) : Option Bytes := whitespace.find? fun blank => blank.isPrefixOf input

@[simp] def parseFrom : Nat → Bytes → Nat → Parser → Except ParseError Parser
  | _, [], _, p => .ok p
  | skip + 1, _ :: rest, position, p => parseFrom skip rest (position + 1) p
  | 0, c :: rest, position, p =>
    if p.delimSet.beginning.isPrefixOf (c :: rest) then
      match readTag p.delimSet (c :: rest) position with
      | .error e => .error e
      | .ok tag =>
        match p.processCurrentText.tree.place tag.comp with
        | .error e => .error e
        | .ok tree => parseFrom (tag.size - 1) rest (position + 1) (.between tag.delimSet tree)
    else
      match blankAt (c :: rest) with
      | some blank =>
        parseFrom (blank.length - 1) rest (position + 1)
          { p.processCurrentText with tree := p.processCurrentText.tree.push (textComponent blank position) }
      | none => parseFrom 0 rest (position + 1) (p.append c position)

def closedBy (tag : Tag) (children : List Component) : Bool :=
  match children.getLast? with
  | none => false
  | some last => last.tag.isSectionEnd && last.tag.name = tag.name

mutual

def checkComponent : Component → Except ParseError Component
  | .mk text tag children position =>
    if tag.isSectionBegin then
      if closedBy tag children then (checkBody children).map (.mk text tag · position)
      else .error (.unclosedSection tag.name position)
    else (checkChildren children).map (.mk text tag · position)

def checkChildren : List Component → Except ParseError (List Component)
  | [] => .ok []
  | child :: rest =>
    match checkComponent child with
    | .error e => .error e
    | .ok child => (checkChildren rest).map (child :: ·)

def checkBody : List Component → Except ParseError (List Component)
  | [] => .ok []
  | [_] => .ok []
  | child :: next :: rest =>
    match checkComponent child with
    | .error e => .error e
    | .ok child => (checkBody (next :: rest)).map (child :: ·)

end

def parse (input : Bytes) : Except ParseError (List Component) :=
  match parseFrom 0 input 0 (.between defaultDelimiters ⟨[],[]⟩) with
  | .error e => .error e
  | .ok p => checkChildren p.processCurrentText.tree.close

end Model

end Uco.Mustache
