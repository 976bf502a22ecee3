import Uco.MustacheRender

/-! Templates written out. A tree whose texts are cut at its blanks and whose names are trimmed is
written as a template that parses to it again; and a text without tags is its own page. -/
namespace Uco.Mustache

section Writing

def opening : Bytes := defaultDelimiters.beginning
def closing : Bytes := defaultDelimiters.ending

def written (body : Bytes) : Bytes := opening ++ body ++ closing

def sigil : TagType → Bytes
  | .sectionBegin => [35]
  | .sectionBeginInverted => [94]
  | .sectionEnd => [47]
  | .partialTag => [62]
  | .unescapedVariable => [38]
  | .comment => [33]
  | .text | .variableTag | .setDelimiter => []

mutual

def print : Component → Bytes
  | .mk text tag children _ =>
    if tag.type = .text then text
    else written (sigil tag.type ++ tag.name) ++
      if tag.isSectionBegin then printAll children ++ written (sigil .sectionEnd ++ tag.name) else []

def printAll : List Component → Bytes
  | [] => []
  | child :: rest => print child ++ printAll rest

end

mutual

def located : Component → Nat → Component
  | .mk text tag children _, position =>
    .mk text tag (locatedAll children (position + (written (sigil tag.type ++ tag.name)).length)) position

def locatedAll : List Component → Nat → List Component
  | [], _ => []
  | child :: rest, position => located child position :: locatedAll rest (position + (print child).length)

end

def isBlank (c : UInt8) : Bool := c = 13 || c = 10 || c = 32 || c = 9

def isRun (text : Bytes) : Bool := text ≠ [] && text.all fun c => c ≠ brace && !isBlank c

def nameWritable (type : TagType) (name : Bytes) : Bool :=
  trim name = name && closingBrace ∉ name &&
    match type, name with
    | .variableTag, c :: _ => tagTypeOf c = .variableTag && c ≠ equalsSign && c ≠ brace
    | _, _ => true

def tagWritable (tag : Tag) : Bool :=
  tag.delimSet = none && tag.type ≠ .setDelimiter && tag.type ≠ .sectionEnd && nameWritable tag.type tag.name

def apart (c d : Component) : Bool :=
  !(c.tag.type = .text && d.tag.type = .text && ((isRun c.text && isRun d.text) || (c.text = [13] && d.text = [10])))

def apartNext (c : Component) : List Component → Bool
  | [] => true
  | d :: _ => apart c d

mutual

def writable : Component → Bool
  | .mk text tag children _ =>
    if tag.type = .text then tag = .plain && children.isEmpty && (text ∈ whitespace || isRun text)
    else text = [] && tagWritable tag && (tag.isSectionBegin || children.isEmpty) && writableAll children

def writableAll : List Component → Bool
  | [] => true
  | child :: rest => writable child && apartNext child rest && writableAll rest

end

end Writing

section Tags

theorem findClean {needle : Bytes} {c : UInt8} {more : Bytes} (first : needle = c :: more) {text : Bytes}
    (clean : c ∉ text) (rest : Bytes) : find needle (text ++ needle ++ rest) = some text.length := by
  induction text with
  | nil =>
    subst first
    rw [List.nil_append, List.cons_append, find, if_pos]
    · rfl
    · rw [List.isPrefixOf_iff_prefix, ← List.cons_append]
      exact List.prefix_append _ _
  | cons d text ih =>
    simp only [List.mem_cons, not_or] at clean
    have other : needle.isPrefixOf (d :: (text ++ needle ++ rest)) = false := by
      rw [first, List.isPrefixOf, beq_false_of_ne clean.1, Bool.false_and]
    rw [List.cons_append, List.cons_append, find, other, if_neg Bool.false_ne_true, ih clean.2]
    rfl

theorem readWritten {body : Bytes} (clean : closingBrace ∉ body) (trimmed : trim body = body)
    (plain : body.head? ≠ some equalsSign) (braces : body.head? ≠ some brace) (rest : Bytes) (position : Nat) :
    readTag defaultDelimiters (written body ++ rest) position =
      .ok ⟨.mk [] (parseTagContents false body) [] position,(written body).length,defaultDelimiters⟩ := by
  have third : (written body ++ rest)[defaultDelimiters.beginning.length]? ≠ defaultDelimiters.beginning[0]? := by
    cases body with
    | nil => simp [written, opening, closing, defaultDelimiters, brace, closingBrace]
    | cons c body => simpa [written, opening, closing, defaultDelimiters] using braces
  have escaped : isUnescapedVar defaultDelimiters (written body ++ rest) = false := by
    rw [isUnescapedVar, decide_eq_false third, Bool.and_false]
  have size : openingSize defaultDelimiters (written body ++ rest) = opening.length := by
    rw [openingSize, escaped]
    rfl
  have behind : (written body ++ rest).drop opening.length = body ++ closing ++ rest := by
    rw [written, List.append_assoc, List.append_assoc, List.drop_left, List.append_assoc]
  have found : find closing (body ++ closing ++ rest) = some body.length := findClean rfl clean rest
  have ends : tagDelimiterEnd defaultDelimiters (written body ++ rest) = closing := by
    rw [tagDelimiterEnd, escaped]
    rfl
  simp only [readTag, size, ends, behind, found]
  rw [List.append_assoc, List.take_left, trimmed, if_neg plain, escaped]
  simp only [written, List.length_append]

theorem trimCons {c : UInt8} {name : Bytes} (solid : isspace c = false) (trimmed : trim name = name) :
    trim (c :: name) = c :: name := by
  have front : (c :: name).dropWhile isspace = c :: name := List.dropWhile_cons_of_neg (by rw [solid]; decide)
  rw [trim, front, List.reverse_cons]
  cases shape : name.reverse with
  | nil =>
    rw [List.reverse_eq_nil_iff.mp shape, List.nil_append, List.dropWhile_cons_of_neg (by rw [solid]; decide)]
    rfl
  | cons d more =>
    have last : name.getLast? = some d := by
      rw [List.getLast?_eq_head?_reverse, shape]
      rfl
    have solid : isspace d = false := trimEnd (by rw [trimmed]; exact last)
    rw [List.cons_append, List.dropWhile_cons_of_neg (by rw [solid]; decide), ← List.cons_append, ← shape]
    simp

theorem sigilReads {type : TagType} {c : UInt8} (marked : sigil type = [c]) :
    tagTypeOf c = type ∧ isspace c = false ∧ c ≠ equalsSign ∧ c ≠ brace ∧ c ≠ closingBrace ∧ type ≠ .variableTag := by
  cases type <;> simp only [sigil, List.cons.injEq, and_true, reduceCtorEq] at marked <;> subst marked <;> decide

theorem parseMarked {type : TagType} {c : UInt8} (marked : sigil type = [c]) {name : Bytes} (trimmed : trim name = name) :
    parseTagContents false (sigil type ++ name) = ⟨name,type,none⟩ := by
  obtain ⟨reads,_,_,_,_,other⟩ := sigilReads marked
  rw [marked, List.singleton_append, parseTagContents, if_neg Bool.false_ne_true]
  simp only [reads, if_neg other, trimmed]

theorem readPrinted {type : TagType} {name : Bytes} (valid : nameWritable type name = true) (tag : type ≠ .text)
    (plain : type ≠ .setDelimiter) (rest : Bytes) (position : Nat) :
    readTag defaultDelimiters (written (sigil type ++ name) ++ rest) position =
      .ok ⟨.mk [] ⟨name,type,none⟩ [] position,(written (sigil type ++ name)).length,defaultDelimiters⟩ := by
  simp only [nameWritable, Bool.and_eq_true, decide_eq_true_eq] at valid
  obtain ⟨⟨trimmed,clean⟩,first⟩ := valid
  have marks : (∃ c, sigil type = [c]) ∨ type = .variableTag := by
    cases type <;> simp_all [sigil]
  rcases marks with ⟨c,marked⟩ | rfl
  · obtain ⟨_,solid,noEquals,noBrace,noClosing,_⟩ := sigilReads marked
    have body : sigil type ++ name = c :: name := by rw [marked, List.singleton_append]
    rw [← parseMarked marked trimmed, body]
    refine readWritten ?_ (trimCons solid trimmed) ?_ ?_ rest position
    · simp [clean, noClosing.symm]
    · simp [noEquals]
    · simp [noBrace]
  · rw [show sigil .variableTag ++ name = name from rfl]
    cases name with
    | nil => exact readWritten (by simp) trimmed (by simp) (by simp) rest position
    | cons c name =>
      simp only [Bool.and_eq_true, decide_eq_true_eq] at first
      obtain ⟨⟨reads,noEquals⟩,noBrace⟩ := first
      rw [readWritten clean trimmed (by simp [noEquals]) (by simp [noBrace]) rest position, parseTagContents,
        if_neg Bool.false_ne_true]
      simp only [reads, if_pos]

end Tags

section Texts

theorem noOpening {c : UInt8} (other : c ≠ brace) (rest : Bytes) :
    defaultDelimiters.beginning.isPrefixOf (c :: rest) = false := by
  rw [show defaultDelimiters.beginning = brace :: [brace] from rfl, List.isPrefixOf, beq_false_of_ne (Ne.symm other),
    Bool.false_and]

theorem noBlank {c : UInt8} (solid : isBlank c = false) (rest : Bytes) : blankAt (c :: rest) = none := by
  simp only [isBlank, Bool.or_eq_false_iff, decide_eq_false_iff_not] at solid
  obtain ⟨⟨⟨cr,lf⟩,space⟩,tab⟩ := solid
  simp only [blankAt, whitespace, List.find?, List.isPrefixOf, beq_false_of_ne (Ne.symm cr), beq_false_of_ne (Ne.symm lf),
    beq_false_of_ne (Ne.symm space), beq_false_of_ne (Ne.symm tab), Bool.false_and]

theorem runPlain {run : Bytes} (valid : isRun run = true) (rest : Bytes) : PlainRun defaultDelimiters run rest := by
  simp only [isRun, Bool.and_eq_true, List.all_eq_true] at valid
  rintro front back rfl more
  cases back with
  | nil => exact absurd rfl more
  | cons c back =>
    have here := valid.2 c (by simp)
    simp only [ne_eq, decide_not, Bool.not_eq_true', decide_eq_false_iff_not] at here
    exact ⟨by simp,noOpening here.1 _,noBlank here.2 _⟩

def Boundary (rest : Bytes) : Prop := rest = [] ∨ ∃ more, rest = opening ++ more

theorem boundaryStops {rest : Bytes} (boundary : Boundary rest) : ¬ Ordinary defaultDelimiters rest := by
  rintro ⟨more,noTag,_⟩
  rcases boundary with rfl | ⟨behind,rfl⟩
  · exact more rfl
  · have here : defaultDelimiters.beginning.isPrefixOf (opening ++ behind) = true :=
      List.isPrefixOf_iff_prefix.mpr (List.prefix_append _ _)
    rw [here] at noTag
    cases noTag

theorem blankFirst {blank rest : Bytes} (known : blank ∈ whitespace) (apart : blank = [13] → rest.head? ≠ some 10) :
    blankAt (blank ++ rest) = some blank := by
  simp only [whitespace, List.mem_cons, List.not_mem_nil, or_false] at known
  rcases known with rfl | rfl | rfl | rfl | rfl
  · rfl
  · rfl
  · cases rest with
    | nil => rfl
    | cons c rest =>
      have other : c ≠ 10 := fun same => apart rfl (congrArg some same)
      simp only [List.cons_append, List.nil_append, blankAt, whitespace, List.find?, List.isPrefixOf,
        beq_false_of_ne (Ne.symm other), Bool.false_and, Bool.and_false]
      rfl
  · rfl
  · rfl

theorem blankNoTag {blank : Bytes} (known : blank ∈ whitespace) (rest : Bytes) :
    defaultDelimiters.beginning.isPrefixOf (blank ++ rest) = false := by
  simp only [whitespace, List.mem_cons, List.not_mem_nil, or_false] at known
  rcases known with rfl | rfl | rfl | rfl | rfl <;> exact noOpening (by decide) _

end Texts

section RoundTrip

theorem nestedAppend {tokens more tree last : List Component} (first : Nested tokens tree) (next : Nested more last) :
    Nested (tokens ++ more) (tree ++ last) := by
  induction first with
  | nil => exact next
  | leaf token noBegin noEnd _ ih => exact .leaf token noBegin noEnd ih
  | «section» opening closing begins ends same inside _ _ ih =>
    rw [List.append_assoc, List.cons_append, List.cons_append]
    exact .section opening closing begins ends same inside ih

theorem lexPrinted {type : TagType} {name : Bytes} (valid : nameWritable type name = true) (tag : type ≠ .text)
    (plain : type ≠ .setDelimiter) {rest : Bytes} {position : Nat} {tokens : List Component}
    (next : Lexes defaultDelimiters (position + (written (sigil type ++ name)).length) rest tokens) :
    Lexes defaultDelimiters position (written (sigil type ++ name) ++ rest)
      (.mk [] ⟨name,type,none⟩ [] position :: tokens) :=
  .tag (written (sigil type ++ name)) _
    (List.isPrefixOf_iff_prefix.mpr (by
      rw [written, List.append_assoc, List.append_assoc]
      exact List.prefix_append _ _))
    (readPrinted valid tag plain rest position) rfl next

theorem lexBlank {blank rest : Bytes} {position : Nat} {tokens : List Component} (known : blank ∈ whitespace)
    (apart : blank = [13] → rest.head? ≠ some 10) (next : Lexes defaultDelimiters (position + blank.length) rest tokens) :
    Lexes defaultDelimiters position (blank ++ rest) (textComponent blank position :: tokens) :=
  .blank blank (blankNoTag known rest) (blankFirst known apart) next

theorem apartTexts {c d : Component} (text : c.tag.type = .text) (next : d.tag.type = .text) (kept : apart c d = true) :
    ¬ (isRun c.text = true ∧ isRun d.text = true) ∧ ¬ (c.text = [13] ∧ d.text = [10]) := by
  rw [apart, text, next] at kept
  simp only [decide_true, Bool.and_self, Bool.true_and, Bool.not_eq_true', Bool.or_eq_false_iff] at kept
  refine ⟨fun both => ?_,fun both => ?_⟩
  · rw [both.1, both.2] at kept
    exact absurd kept.1 (by decide)
  · rw [decide_eq_true both.1, decide_eq_true both.2] at kept
    exact absurd kept.2 (by decide)

theorem printBehind {c d : Component} (text : c.tag.type = .text) (valid : writable d = true) (kept : apart c d = true)
    (rest : Bytes) :
    (isRun c.text = true → ¬ Ordinary defaultDelimiters (print d ++ rest)) ∧
      (c.text = [13] → (print d ++ rest).head? ≠ some 10) := by
  obtain ⟨shown,tag,children,place⟩ := d
  rw [writable] at valid
  rw [print]
  split at valid
  · rename_i type
    rw [if_pos type]
    simp only [Bool.and_eq_true, Bool.or_eq_true, decide_eq_true_eq] at valid
    have next : (Component.mk shown tag children place).tag.type = .text := type
    obtain ⟨noRuns,noPair⟩ := apartTexts text next kept
    simp only [Component.text] at noRuns noPair
    rcases valid.2 with known | run
    · refine ⟨fun _ ordinary => ?_,fun carriage => ?_⟩
      · simp only [whitespace, List.mem_cons, List.not_mem_nil, or_false] at known
        rcases known with rfl | rfl | rfl | rfl | rfl
        · cases ordinary.2.2
        · cases ordinary.2.2
        · rcases rest with _ | ⟨e,rest⟩
          · cases ordinary.2.2
          · have found := List.find?_eq_none.mp ordinary.2.2 [13] (by decide)
            exact found rfl
        · cases ordinary.2.2
        · cases ordinary.2.2
      · have other : shown ≠ [10] := fun same => noPair ⟨carriage,same⟩
        simp only [whitespace, List.mem_cons, List.not_mem_nil, or_false] at known
        rcases known with rfl | rfl | rfl | rfl | rfl
        · simp
        · exact absurd rfl other
        · simp
        · simp
        · simp
    · refine ⟨fun ran => absurd ⟨ran,run⟩ noRuns,fun _ => ?_⟩
      · simp only [isRun, Bool.and_eq_true, List.all_eq_true] at run
        cases shown with
        | nil => simp at run
        | cons e shown =>
          have here := run.2 e (by simp)
          rw [List.cons_append, List.head?_cons]
          rintro ⟨⟩
          revert here
          decide
  · rename_i type
    rw [if_neg type, written]
    refine ⟨fun _ => boundaryStops (.inr ?_),fun _ => ?_⟩
    · simp only [List.append_assoc]
      exact ⟨_,rfl⟩
    · simp [opening, defaultDelimiters, brace]

theorem printNext {c : Component} {rest : List Component} (text : c.tag.type = .text) (valid : writableAll rest = true)
    (kept : apartNext c rest = true) {behind : Bytes} (boundary : Boundary behind) :
    (isRun c.text = true → ¬ Ordinary defaultDelimiters (printAll rest ++ behind)) ∧
      (c.text = [13] → (printAll rest ++ behind).head? ≠ some 10) := by
  cases rest with
  | nil =>
    refine ⟨fun _ => boundaryStops boundary,fun _ => ?_⟩
    rcases boundary with rfl | ⟨more,rfl⟩ <;> simp [printAll, opening, defaultDelimiters, brace]
  | cons d rest =>
    rw [writableAll, Bool.and_eq_true, Bool.and_eq_true] at valid
    rw [printAll, List.append_assoc]
    exact printBehind text valid.1.1 kept _

mutual

theorem printLexes :
    ∀ (c : Component) (position : Nat) (rest : Bytes) (tokens : List Component), writable c = true →
      (c.tag.type = .text → (isRun c.text = true → ¬ Ordinary defaultDelimiters rest) ∧ (c.text = [13] → rest.head? ≠ some 10)) →
      Lexes defaultDelimiters (position + (print c).length) rest tokens →
      ∃ own, Lexes defaultDelimiters position (print c ++ rest) (own ++ tokens) ∧ Nested own [located c position]
  | .mk text tag children at', position, rest, tokens, valid, next, lexed => by
    rw [writable] at valid
    rw [print] at lexed ⊢
    rw [located]
    split at valid
    · rename_i type
      rw [if_pos type] at lexed ⊢
      simp only [Bool.and_eq_true, Bool.or_eq_true, decide_eq_true_eq, List.isEmpty_iff] at valid
      obtain ⟨⟨rfl,rfl⟩,shape⟩ := valid
      obtain ⟨stop,carriage⟩ := next type
      refine ⟨[textComponent text position],?_,?_⟩
      · rcases shape with known | run
        · exact lexBlank known carriage lexed
        · have more : text ≠ [] := by
            rintro rfl
            cases run
          exact .text text more (runPlain run rest) (stop run) lexed
      · rw [locatedAll]
        exact .leaf _ rfl rfl .nil
    · rename_i type
      rw [if_neg type] at lexed ⊢
      simp only [tagWritable, Bool.and_eq_true, Bool.or_eq_true, decide_eq_true_eq, List.isEmpty_iff] at valid
      obtain ⟨⟨⟨rfl,⟨⟨own,noSet⟩,noEnd⟩,name⟩,leaf⟩,inside⟩ := valid
      obtain ⟨shown,kind,delims⟩ := tag
      obtain rfl : delims = none := own
      simp only at type noSet noEnd name
      by_cases begins : (⟨shown,kind,none⟩ : Tag).isSectionBegin = true
      · rw [if_pos begins] at lexed ⊢
        have end' : nameWritable .sectionEnd shown = true := by
          simp only [nameWritable, Bool.and_eq_true, decide_eq_true_eq] at name ⊢
          exact ⟨name.1,trivial⟩
        rw [List.append_assoc, List.append_assoc]
        rw [List.length_append, List.length_append, ← Nat.add_assoc, ← Nat.add_assoc] at lexed
        have closed := lexPrinted end' (by simp) (by simp) lexed
        obtain ⟨body,lexedBody,nested⟩ := printAllLexes children _ _ _ inside
          (.inr ⟨_,by rw [written, List.append_assoc, List.append_assoc]⟩) closed
        have whole := lexPrinted name type noSet lexedBody
        refine ⟨_,?_,.section (.mk [] ⟨shown,kind,none⟩ [] position) (.mk [] ⟨shown,.sectionEnd,none⟩ []
          (position + (written (sigil kind ++ shown)).length + (printAll children).length)) begins rfl rfl nested .nil⟩
        rw [List.cons_append, List.cons_append, List.append_assoc]
        exact whole
      · rw [if_neg begins, List.append_nil] at lexed ⊢
        obtain rfl : children = [] := leaf.resolve_left begins
        refine ⟨[_],lexPrinted name type noSet lexed,?_⟩
        rw [locatedAll]
        have noBegin : (⟨shown,kind,none⟩ : Tag).isSectionBegin = false := by simpa using begins
        exact .leaf _ noBegin (decide_eq_false noEnd) .nil

theorem printAllLexes :
    ∀ (tree : List Component) (position : Nat) (rest : Bytes) (tokens : List Component), writableAll tree = true →
      Boundary rest → Lexes defaultDelimiters (position + (printAll tree).length) rest tokens →
      ∃ own, Lexes defaultDelimiters position (printAll tree ++ rest) (own ++ tokens) ∧ Nested own (locatedAll tree position)
  | [], position, rest, tokens, _, _, lexed => ⟨[],lexed,.nil⟩
  | child :: more, position, rest, tokens, valid, boundary, lexed => by
    rw [writableAll, Bool.and_eq_true, Bool.and_eq_true] at valid
    obtain ⟨⟨here,kept⟩,later⟩ := valid
    rw [printAll, List.length_append, ← Nat.add_assoc] at lexed
    obtain ⟨last,lexedLast,nestedLast⟩ := printAllLexes more _ rest tokens later boundary lexed
    obtain ⟨own,lexedOwn,nestedOwn⟩ := printLexes child position _ _ here
      (fun text => printNext text later kept boundary) lexedLast
    refine ⟨own ++ last,?_,nestedAppend nestedOwn nestedLast⟩
    rw [printAll, List.append_assoc, List.append_assoc]
    exact lexedOwn

end

end RoundTrip

/- A writable tree is written as a template that parses to it, with every component at its place. -/
theorem parsePrinted {tree : List Component} (valid : writableAll tree = true) :
    parse (printAll tree) = .ok (locatedAll tree 0) := by
  obtain ⟨tokens,lexed,nested⟩ := printAllLexes tree 0 [] [] valid (.inl rfl) (.done _ _)
  rw [List.append_nil, List.append_nil] at lexed
  exact nestedParses lexed nested

def guestList : List Component :=
  [.mk [] ⟨bytes "guests",.sectionBegin,none⟩ [.mk (bytes "Dear") .plain [] 0,.mk [32] .plain [] 0,
      .mk [] ⟨bytes "name",.variableTag,none⟩ [] 0,.mk [10] .plain [] 0] 0,
    .mk [] ⟨bytes "guests",.sectionBeginInverted,none⟩ [.mk [] ⟨bytes "empty.html",.partialTag,none⟩ [] 0] 0]

theorem guestListParsed : parse (printAll guestList) = .ok (locatedAll guestList 0) := parsePrinted (by decide)

section Plain

theorem noTagBehind {front rest : Bytes} (noTag : ¬ opening <:+: front ++ rest) : ¬ opening <:+: rest :=
  fun inside => noTag (inside.trans (List.suffix_append front rest).isInfix)

theorem noTagHere {input : Bytes} (noTag : ¬ opening <:+: input) :
    defaultDelimiters.beginning.isPrefixOf input = false := by
  rw [← Bool.not_eq_true, List.isPrefixOf_iff_prefix]
  exact fun front => noTag front.isInfix

theorem plainLexes (input : Bytes) (position : Nat) (noTag : ¬ opening <:+: input) :
    ∃ tokens, Lexes defaultDelimiters position input tokens ∧ (∀ token ∈ tokens, token.tag = .plain ∧ token.children = []) ∧
      tokens.flatMap Component.text = input := by
  induction size : input.length using Nat.strongRecOn generalizing input position with
  | ind n ih =>
    subst size
    obtain ⟨run,rest,rfl,plain,stop⟩ := plainCut defaultDelimiters input
    have later := noTagBehind noTag
    -- what stands behind the run is the end or a blank
    have behind (position : Nat) : ∃ tokens, Lexes defaultDelimiters position rest tokens ∧
        (∀ token ∈ tokens, token.tag = .plain ∧ token.children = []) ∧ tokens.flatMap Component.text = rest := by
      by_cases empty : rest = []
      · subst empty
        exact ⟨[],.done _ _,by simp,rfl⟩
      cases first : blankAt rest with
      | none => exact absurd ⟨empty,noTagHere later,first⟩ stop
      | some blank =>
        have front := List.find?_some (p := fun blank : Bytes => blank.isPrefixOf rest) first
        obtain ⟨more,rfl⟩ := List.isPrefixOf_iff_prefix.mp front
        have shorter : more.length < (run ++ (blank ++ more)).length := by
          have := List.length_pos_iff.mpr (blankMore first)
          rw [List.length_append, List.length_append]
          omega
        obtain ⟨tokens,lexed,texts,whole⟩ := ih _ shorter more (position + blank.length) (noTagBehind later) rfl
        refine ⟨_,.blank blank (noTagHere later) first lexed,List.forall_mem_cons.mpr ⟨⟨rfl,rfl⟩,texts⟩,?_⟩
        rw [List.flatMap_cons, whole]
        rfl
    by_cases more : run = []
    · subst more
      exact behind position
    · obtain ⟨tokens,lexed,texts,whole⟩ := behind (position + run.length)
      refine ⟨_,.text run more plain stop lexed,List.forall_mem_cons.mpr ⟨⟨rfl,rfl⟩,texts⟩,?_⟩
      rw [List.flatMap_cons, whole]
      rfl

theorem plainNested {tokens : List Component} (texts : ∀ token ∈ tokens, token.tag = .plain ∧ token.children = []) :
    Nested tokens tokens := by
  induction tokens with
  | nil => exact .nil
  | cons token tokens ih =>
    obtain ⟨here,later⟩ := List.forall_mem_cons.mp texts
    exact .leaf token (by rw [here.1]; rfl) (by rw [here.1]; rfl) (ih later)

def Event.bytes : Event → Bytes
  | .text shown => shown
  | .newline shown => shown
  | .sectionTag => []

theorem layoutUntagged {events : List Event} (untagged : Event.sectionTag ∉ events) :
    (∀ line ∈ eventLines events, line.tagged = false) ∧ layout events = events.flatMap Event.bytes := by
  induction events with
  | nil => simp [layout, eventLines, Line.shown]
  | cons event rest ih =>
    simp only [List.mem_cons, not_or] at untagged
    obtain ⟨lines,whole⟩ := ih untagged.2
    obtain ⟨line,more,cut⟩ := linesMore rest
    rw [cut] at lines
    obtain ⟨head,tail⟩ := List.forall_mem_cons.mp lines
    rw [layout, cut, List.flatMap_cons, Line.shown, head, Bool.false_and, if_neg Bool.false_ne_true] at whole
    cases event with
    | text shown =>
      simp only [layout, eventLines, cut]
      refine ⟨List.forall_mem_cons.mpr ⟨head,tail⟩,?_⟩
      rw [List.flatMap_cons, List.flatMap_cons, Line.shown, head, Bool.false_and, if_neg Bool.false_ne_true, ← whole]
      simp only [Event.bytes, List.append_assoc]
    | newline shown =>
      simp only [layout, eventLines, cut]
      refine ⟨List.forall_mem_cons.mpr ⟨rfl,lines⟩,?_⟩
      rw [List.flatMap_cons, List.flatMap_cons, List.flatMap_cons, Line.shown, Line.shown, head, ← whole]
      simp [Event.bytes]
    | sectionTag => exact absurd rfl untagged.1

theorem plainMeans (inner : Bytes → List Data → Option (List Event × Option ParseError)) {tokens : List Component}
    (texts : ∀ token ∈ tokens, token.tag = .plain ∧ token.children = []) (items : List Data) :
    ∃ events, meansChildren inner tokens items = some ⟨.walk,events,none⟩ ∧ Event.sectionTag ∉ events ∧
      events.flatMap Event.bytes = tokens.flatMap Component.text := by
  induction tokens with
  | nil => exact ⟨[],by rw [meansChildren],by simp,rfl⟩
  | cons token tokens ih =>
    obtain ⟨here,later⟩ := List.forall_mem_cons.mp texts
    obtain ⟨events,meant,untagged,whole⟩ := ih later
    obtain ⟨text,tag,children,_⟩ := token
    obtain ⟨rfl,rfl⟩ : tag = .plain ∧ children = [] := here
    have shown : (if isNewline text then Event.newline text else .text text).bytes = text := by split <;> rfl
    have other : Event.sectionTag ≠ if isNewline text then Event.newline text else .text text := by split <;> simp
    refine ⟨(if isNewline text then Event.newline text else .text text) :: events,?_,?_,?_⟩
    · rw [meansChildren, means, meansComponent.eq_def]
      simp only [Tag.plain, meansChildren, meant, Option.map_some, if_pos, Meaning.behind, List.append_nil,
        List.singleton_append, Option.or_none]
    · rw [List.mem_cons, not_or]
      exact ⟨other,untagged⟩
    · rw [List.flatMap_cons, List.flatMap_cons, shown, whole]
      rfl

end Plain

/- A page without tags is shown as it is, line by line and blank by blank, whatever the data. -/
theorem plainPage (fuel : Nat) {input : Bytes} (noTag : ¬ opening <:+: input) (data : Data) :
    mustache fuel input data = some input := by
  obtain ⟨tokens,lexed,texts,whole⟩ := plainLexes input 0 noTag
  have parsed := nestedParses lexed (plainNested texts)
  obtain ⟨events,meant,untagged,shown⟩ := plainMeans (meansPartial fuel) texts [data]
  simp only [mustache, parsed]
  rw [renderLaidOut, meant, Option.map_some, (layoutUntagged untagged).2, shown, whole]

theorem mottoPage : mustache 0 (bytes "<b>{ one }</b>\r\n two\n") .boolFalse =
    some (bytes "<b>{ one }</b>\r\n two\n") := plainPage 0 (by decide) .boolFalse

end Uco.Mustache
