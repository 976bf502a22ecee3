import Uco.Bytes

/-! The log macros: they hand over the source text of their arguments, which is split at the commas
between them, and the name of each decides how its value is printed. -/
namespace Uco.LogArguments

section Model

def lparen : UInt8 := 40
def rparen : UInt8 := 41
def dquote : UInt8 := 34
def squote : UInt8 := 39
def backslash : UInt8 := 92
def comma : UInt8 := 44
def space : UInt8 := 32

def blank (c : UInt8) : Bool := c = space ∨ c = 9 ∨ c = 10 ∨ c = 13

def trim (s : Bytes) : Bytes := ((s.dropWhile blank).reverse.dropWhile blank).reverse

/- The variables of the loop of split_args; `before` is the byte before the next one, and `segment` what
stands between `last` and it. -/
structure Scan where
  before : Option UInt8
  parentheses : Int
  tag1 : Bool
  tag2 : Bool
  segment : Bytes
  deriving DecidableEq, Repr

def Scan.cuts (s : Scan) (c : UInt8) : Bool := c = comma ∧ s.parentheses = 0 ∧ s.tag1 = false ∧ s.tag2 = false

def Scan.step (s : Scan) (c : UInt8) : Scan where
  before := some c
  parentheses :=
    if s.tag1 || s.tag2 then s.parentheses
    else if c = lparen then s.parentheses + 1
    else if c = rparen then s.parentheses - 1
    else s.parentheses
  tag1 := if c = dquote ∧ s.tag2 = false ∧ s.before ≠ some backslash then !s.tag1 else s.tag1
  tag2 := if c = squote ∧ s.tag1 = false ∧ s.before ≠ some backslash then !s.tag2 else s.tag2
  segment := if s.cuts c then [] else s.segment ++ [c]

def splitFrom (s : Scan) : Bytes → List Bytes
  | [] => if s.segment = [] then [] else [trim s.segment]
  | c :: rest => if s.cuts c then trim s.segment :: splitFrom (s.step c) rest else splitFrom (s.step c) rest

def splitArgs (s : Bytes) : List Bytes := splitFrom ⟨none,0,false,false,[]⟩ s

def isDot (sv : Bytes) : Bool :=
  match sv with
  | [first,c,last] => (first = squote ∨ first = dquote) ∧ (last = squote ∨ last = dquote) ∧ c ∈ bytes ",.:!"
  | _ => false

def isWithName (sv : Bytes) : Bool := 4 ≤ sv.length ∧ sv.take 3 = bytes "NR(" ∧ sv.getLast? = some rparen

def shown (name value : Bytes) : Bytes :=
  if isWithName name then (name.drop 3).take (name.length - 4) ++ [space] ++ value else value

def lead (index : ℕ) (name : Bytes) : Bytes := if index ≠ 0 ∧ isDot name = false then [space] else []

/- `values` are the texts that the stream makes of the arguments. -/
def genLogBody (names : List Bytes) (index : ℕ) : List Bytes → Bytes
  | [] => []
  | first :: rest =>
    (match names[index]? with
      | none => []
      | some name => lead index name ++ shown name first) ++ genLogBody names (index + 1) rest

end Model

section Source

inductive Literal (q : UInt8) : Bytes → Prop where
  | nil : Literal q []
  | char {c rest} (other : c ≠ q) (plain : c ≠ backslash) (further : Literal q rest) : Literal q (c :: rest)
  | escape {c rest} (further : Literal q rest) (last : rest = [] → c ≠ backslash) : Literal q (backslash :: c :: rest)

inductive Text : Bool → Bytes → Prop where
  | nil {inner} : Text inner []
  | char {inner c rest} (plain : c ∉ [lparen,rparen,dquote,squote,backslash,comma]) (further : Text inner rest) :
      Text inner (c :: rest)
  | comma {rest} (further : Text true rest) : Text true (comma :: rest)
  | group {inner within rest} (closed : Text true within) (further : Text inner rest) :
      Text inner (lparen :: within ++ rparen :: rest)
  | literal {inner q body rest} (quote : q = dquote ∨ q = squote) (closed : Literal q body) (further : Text inner rest) :
      Text inner (q :: body ++ q :: rest)

structure Argument (text : Bytes) : Prop where
  some : text ≠ []
  text : Text false text

end Source

section Splitting

def inside (q : UInt8) (before : Option UInt8) (p : Int) (segment : Bytes) : Scan :=
  ⟨before,p,q = dquote,q = squote,segment⟩

theorem insideStep {q : UInt8} (quote : q = dquote ∨ q = squote) (before : Option UInt8) (p : Int) (segment rest : Bytes)
    {c : UInt8} (other : c ≠ q ∨ before = some backslash) :
    splitFrom (inside q before p segment) (c :: rest) = splitFrom (inside q (some c) p (segment ++ [c])) rest := by
  have uncut : (inside q before p segment).cuts c = false := by
    rcases quote with rfl | rfl <;> simp [inside, Scan.cuts]
  have next : (inside q before p segment).step c = inside q (some c) p (segment ++ [c]) := by
    rcases quote with rfl | rfl <;> rcases other with other | escaped <;>
      simp_all [inside, Scan.step, dquote, squote]
  rw [splitFrom, uncut, next]
  rfl

theorem closesLiteral {q : UInt8} (quote : q = dquote ∨ q = squote) {before : Option UInt8}
    (unescaped : before ≠ some backslash) (p : Int) (segment rest : Bytes) :
    splitFrom (inside q before p segment) (q :: rest) = splitFrom ⟨some q,p,false,false,segment ++ [q]⟩ rest := by
  have uncut : (inside q before p segment).cuts q = false := by
    rcases quote with rfl | rfl <;> simp [inside, Scan.cuts]
  have next : (inside q before p segment).step q = ⟨some q,p,false,false,segment ++ [q]⟩ := by
    rcases quote with rfl | rfl <;> simp_all [inside, Scan.step, dquote, squote]
  rw [splitFrom, uncut, next]
  rfl

theorem opensLiteral {q : UInt8} (quote : q = dquote ∨ q = squote) {before : Option UInt8}
    (unescaped : before ≠ some backslash) (p : Int) (segment rest : Bytes) :
    splitFrom ⟨before,p,false,false,segment⟩ (q :: rest) = splitFrom (inside q (some q) p (segment ++ [q])) rest := by
  have uncut : (⟨before,p,false,false,segment⟩ : Scan).cuts q = false := by
    rcases quote with rfl | rfl <;> simp [Scan.cuts, dquote, squote, comma]
  have next : (⟨before,p,false,false,segment⟩ : Scan).step q = inside q (some q) p (segment ++ [q]) := by
    rcases quote with rfl | rfl <;> simp_all [inside, Scan.step, dquote, squote, lparen, rparen]
  rw [splitFrom, uncut, next]
  rfl

theorem scansLiteral {q : UInt8} (quote : q = dquote ∨ q = squote) {body : Bytes} (closed : Literal q body) (p : Int)
    (before : Option UInt8) (segment rest : Bytes) (unescaped : body = [] → before ≠ some backslash) :
    splitFrom (inside q before p segment) (body ++ q :: rest) =
      splitFrom ⟨some q,p,false,false,segment ++ body ++ [q]⟩ rest := by
  induction closed generalizing before segment with
  | nil => rw [List.nil_append, closesLiteral quote (unescaped rfl), List.append_nil]
  | @char c further other plain _ ih =>
    rw [List.cons_append, insideStep quote before p segment _ (.inl other), ih _ _ fun _ same => plain (Option.some.inj same)]
    simp
  | @escape c further _ last ih =>
    have foreign : backslash ≠ q := by rcases quote with rfl | rfl <;> decide
    rw [List.cons_append, List.cons_append, insideStep quote before p segment _ (.inl foreign),
      insideStep quote (some backslash) p _ _ (.inr rfl), ih _ _ fun empty same => last empty (Option.some.inj same)]
    simp

theorem plainStep {c : UInt8} (plain : c ∉ [lparen,rparen,dquote,squote,backslash,comma]) (before : Option UInt8) (p : Int)
    (segment rest : Bytes) :
    splitFrom ⟨before,p,false,false,segment⟩ (c :: rest) = splitFrom ⟨some c,p,false,false,segment ++ [c]⟩ rest := by
  simp only [List.mem_cons, List.not_mem_nil, or_false, not_or] at plain
  have uncut : (⟨before,p,false,false,segment⟩ : Scan).cuts c = false := by simp [Scan.cuts, plain]
  have next : (⟨before,p,false,false,segment⟩ : Scan).step c = ⟨some c,p,false,false,segment ++ [c]⟩ := by
    simp [Scan.step, uncut, plain]
  rw [splitFrom, uncut, next]
  rfl

theorem opensGroup (before : Option UInt8) (p : Int) (segment rest : Bytes) :
    splitFrom ⟨before,p,false,false,segment⟩ (lparen :: rest) =
      splitFrom ⟨some lparen,p + 1,false,false,segment ++ [lparen]⟩ rest := by
  simp [splitFrom, Scan.cuts, Scan.step, lparen, comma, dquote, squote]

theorem closesGroup (before : Option UInt8) (p : Int) (segment rest : Bytes) :
    splitFrom ⟨before,p + 1,false,false,segment⟩ (rparen :: rest) =
      splitFrom ⟨some rparen,p,false,false,segment ++ [rparen]⟩ rest := by
  simp [splitFrom, Scan.cuts, Scan.step, lparen, rparen, comma, dquote, squote]

theorem scansText {inner : Bool} {text : Bytes} (written : Text inner text) (p : Int) (above : 0 ≤ p)
    (within : inner = true → 0 < p) (before : Option UInt8) (unescaped : before ≠ some backslash) (segment rest : Bytes) :
    ∃ last, last ≠ some backslash ∧ splitFrom ⟨before,p,false,false,segment⟩ (text ++ rest) =
      splitFrom ⟨last,p,false,false,segment ++ text⟩ rest := by
  induction written generalizing p before segment rest with
  | nil => exact ⟨before,unescaped,by simp⟩
  | @char inner c further plain _ ih =>
    have other : c ≠ backslash := fun same => plain (by simp [same])
    obtain ⟨last,done,same⟩ := ih p above within (some c) (fun same => other (Option.some.inj same)) (segment ++ [c]) rest
    refine ⟨last,done,?_⟩
    rw [List.cons_append, plainStep plain, same]
    simp
  | @comma further _ ih =>
    obtain ⟨last,done,same⟩ := ih p above within (some comma) (by decide) (segment ++ [comma]) rest
    refine ⟨last,done,?_⟩
    have deep : p ≠ 0 := Int.ne_of_gt (within rfl)
    have uncut : (⟨before,p,false,false,segment⟩ : Scan).cuts comma = false := by simp [Scan.cuts, deep]
    have next : (⟨before,p,false,false,segment⟩ : Scan).step comma = ⟨some comma,p,false,false,segment ++ [comma]⟩ := by
      rw [Scan.step, uncut]
      simp [comma, lparen, rparen, dquote, squote]
    rw [List.cons_append, splitFrom, uncut, next]
    simp [same]
  | @group inner body further _ _ closed ih =>
    obtain ⟨mid,still,first⟩ := closed (p + 1) (by omega) (fun _ => by omega) (some lparen) (by decide) (segment ++ [lparen])
      (rparen :: (further ++ rest))
    obtain ⟨last,done,same⟩ := ih p above within (some rparen) (by decide) (segment ++ [lparen] ++ body ++ [rparen]) rest
    refine ⟨last,done,?_⟩
    have shape : lparen :: body ++ rparen :: further ++ rest = lparen :: (body ++ rparen :: (further ++ rest)) := by simp
    rw [shape, opensGroup, first, closesGroup, same]
    simp
  | @literal inner q body further quote closed _ ih =>
    have closing : some q ≠ some backslash := by rcases quote with rfl | rfl <;> decide
    obtain ⟨last,done,same⟩ := ih p above within (some q) closing (segment ++ [q] ++ body ++ [q]) rest
    refine ⟨last,done,?_⟩
    have shape : q :: body ++ q :: further ++ rest = q :: (body ++ q :: (further ++ rest)) := by simp
    rw [shape, opensLiteral quote unescaped, scansLiteral quote closed p _ _ _ fun _ => closing, same]
    simp

theorem cutsAt (before : Option UInt8) (segment rest : Bytes) :
    splitFrom ⟨before,0,false,false,segment⟩ (comma :: rest) =
      trim segment :: splitFrom ⟨some comma,0,false,false,[]⟩ rest := by
  simp [splitFrom, Scan.cuts, Scan.step, lparen, rparen, comma, dquote, squote]

theorem splitsJoined {args : List Bytes} (each : ∀ a ∈ args, Argument a) (before : Option UInt8)
    (unescaped : before ≠ some backslash) :
    splitFrom ⟨before,0,false,false,[]⟩ ([comma].intercalate args) = args.map trim := by
  induction args generalizing before with
  | nil => rfl
  | cons a rest ih =>
    have first := each a List.mem_cons_self
    cases rest with
    | nil =>
      obtain ⟨last,_,same⟩ := scansText first.text 0 (Int.le_refl 0) (by simp) before unescaped [] []
      rw [List.append_nil, List.nil_append] at same
      rw [List.intercalate_singleton, same, splitFrom, if_neg first.some]
      rfl
    | cons b rest =>
      obtain ⟨last,_,same⟩ := scansText first.text 0 (Int.le_refl 0) (by simp) before unescaped [] (comma :: [comma].intercalate (b :: rest))
      rw [List.intercalate_cons_cons, List.append_assoc, List.singleton_append, same, cutsAt, List.nil_append,
        ih (fun a inside => each a (List.mem_cons_of_mem _ inside)) (some comma) (by decide)]
      rfl

end Splitting

section Printing

theorem bodyPrinted (names values : List Bytes) (same : names.length = values.length) (before : List Bytes) :
    genLogBody (before ++ names) before.length values =
      ((names.zip values).zipIdx before.length).flatMap fun p => lead p.2 p.1.1 ++ shown p.1.1 p.1.2 := by
  induction values generalizing names before with
  | nil =>
    cases List.length_eq_zero_iff.mp same
    rfl
  | cons v rest ih =>
    cases names with
    | nil => cases same
    | cons name names =>
      have tail := ih names (by simpa using same) (before ++ [name])
      rw [List.append_assoc, List.singleton_append, List.length_append, List.length_singleton] at tail
      rw [genLogBody, tail]
      simp

end Printing

section Results

def message : List Bytes := [dquote :: [97,comma,98] ++ dquote :: [],space :: 102 :: (lparen :: [120,comma,121] ++ rparen :: [])]

example : splitArgs (bytes "\"C:\\\\\", n") = [bytes "\"C:\\\\\", n"] := by decide

end Results

end Uco.LogArguments
