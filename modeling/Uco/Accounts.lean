import Uco.Bytes
import Uco.Interleaving
import Mathlib.Data.List.Infix

/-! Accounts: the user service over its hasher and the user table. Any number of registrations and
logins run at once; each statement is atomic in the database, which may also refuse one, or carry
it out and lose the answer. -/
namespace Uco.Accounts
open Interleaving

section Policy

def hasValidUsernameChars (username : Bytes) : Bool :=
  username.all fun c => (97 ≤ c && c ≤ 122) || (65 ≤ c && c ≤ 90) || (48 ≤ c && c ≤ 57) || c = 95 || c = 45

def hasBadPasswordChars (pw : Bytes) : Bool :=
  pw.head? = some 32 || pw.getLast? = some 32 || pw.any fun c => c < 32 || c = 127

def containsUsername (pw username : Bytes) : Bool := username <:+: pw

def kWeakPasswords : List Bytes :=
  [bytes "123456",bytes "12345678",bytes "123456789",bytes "password",bytes "qwerty",bytes "111111",bytes "abc123",
    bytes "000000",bytes "admin",bytes "letmein",bytes "iloveyou",bytes "666666"]

def isWeakPassword (pw : Bytes) : Bool := pw ∈ kWeakPasswords

def refusal (username password : Bytes) : Option Int :=
  if username.length < 3 ∨ username.length > 64 ∨ hasValidUsernameChars username = false then some 2
  else if password.length < 8 ∨ password.length > 64 then some 2
  else if hasBadPasswordChars password || containsUsername password username || isWeakPassword password then some 3
  else none

def newVid (ms : UInt64) (rnd : UInt16) : UInt64 := (ms <<< 16) ||| (rnd.toUInt64 &&& 0x7fff) ||| 1

theorem newVidMore (ms : UInt64) (rnd : UInt16) : newVid ms rnd ≠ 0 := by
  intro zero
  have same := congrArg UInt64.toNat zero
  rw [newVid, UInt64.toNat_or, show UInt64.toNat 1 = 1 from rfl, show UInt64.toNat 0 = 0 from rfl] at same
  have least := Nat.right_le_or (m := 1) (n := (ms <<< 16 ||| rnd.toUInt64 &&& 0x7fff).toNat)
  omega

theorem newVidNat {ms : UInt64} (small : ms.toNat < 281474976710656) (rnd : UInt16) :
    (newVid ms rnd).toNat = ms.toNat * 65536 + ((rnd.toNat % 32768) ||| 1) := by
  have low : (rnd.toNat % 32768) ||| 1 < 2 ^ 16 := Nat.or_lt_two_pow (by omega) (by omega)
  have shift : (ms <<< 16).toNat = ms.toNat <<< 16 := by
    rw [UInt64.toNat_shiftLeft, Nat.mod_eq_of_lt]
    · rfl
    · rw [Nat.shiftLeft_eq]
      simp
      omega
  have bits : (rnd.toUInt64 &&& 0x7fff).toNat = rnd.toNat % 32768 := by
    rw [UInt64.toNat_and, UInt16.toNat_toUInt64]
    exact Nat.and_two_pow_sub_one_eq_mod rnd.toNat 15
  rw [newVid, UInt64.toNat_or, UInt64.toNat_or, shift, bits, Nat.or_assoc, show UInt64.toNat 1 = 1 from rfl,
    ← Nat.shiftLeft_add_eq_or_of_lt low, Nat.shiftLeft_eq]

/- Accounts are numbered in the order of their registration, and the number tells its time. -/
theorem laterGreater {ms ms' : UInt64} (small : ms'.toNat < 281474976710656) (later : ms < ms') (rnd rnd' : UInt16) :
    newVid ms rnd < newVid ms' rnd' ∧ (newVid ms' rnd').toNat / 65536 = ms'.toNat := by
  have order : ms.toNat < ms'.toNat := UInt64.lt_iff_toNat_lt.mp later
  have low (r : UInt16) : (r.toNat % 32768) ||| 1 < 2 ^ 16 := Nat.or_lt_two_pow (by omega) (by omega)
  have first := newVidNat (by omega : ms.toNat < 281474976710656) rnd
  have second := newVidNat small rnd'
  have := low rnd
  have := low rnd'
  rw [UInt64.lt_iff_toNat_lt]
  omega

theorem oneSecondLater : newVid 1700000000000 7 < newVid 1700000001000 3 ∧
    (newVid 1700000001000 3).toNat / 65536 = (1700000001000 : UInt64).toNat :=
  laterGreater (by decide) (by decide) 7 3

end Policy

section Hasher

structure Crypt where
  gensalt : Bytes → Option Bytes
  crypt : Bytes → Bytes → Option Bytes

def bcryptPrefix : Bytes := bytes "$2b$"

structure Crypt.Bcrypt (lib : Crypt) : Prop where
  shape : ∀ rnd setting phrase out, lib.gensalt rnd = some setting → lib.crypt phrase setting = some out →
    bcryptPrefix.isPrefixOf out = true ∧ out.length = 60
  again : ∀ rnd setting phrase out, lib.gensalt rnd = some setting → lib.crypt phrase setting = some out →
    lib.crypt phrase out = some out

variable (lib : Crypt)

def bcryptHash (rnd : Option Bytes) (plain : Bytes) : Bytes :=
  match rnd with
  | none => []
  | some rnd =>
    match lib.gensalt rnd with
    | none => []
    | some setting => (lib.crypt (cString plain) setting).getD []

def bcryptVerify (plain hash : Bytes) : Bool :=
  if bcryptPrefix.isPrefixOf hash = false ∨ hash.length ≠ 60 then false
  else
    match lib.crypt (cString plain) hash with
    | none => false
    | some out => (out ++ List.replicate 60 0).take 60 = hash

def verifyCode (poolRet : Int) (same : Bool) : Int := if poolRet ≠ 0 then -1 else if same then 0 else 1

end Hasher

section Dao

structure User where
  vid : UInt64
  username : Bytes
  password : Bytes
  deriving DecidableEq, Repr

def kDuplicateEntry : Int := -1062
def kTimeout : Int := -201
def kLockWaitTimeout : Int := -1205
def kLockDeadlock : Int := -1213

def retryable (retCode : Int) : Bool :=
  retCode = kTimeout || (retCode ≤ -2000 && retCode > -3000) || retCode = kLockDeadlock || retCode = kLockWaitTimeout

def insertCode : Option Int → Int
  | none => -2
  | some retCode =>
    if retCode = 0 then 0 else if retCode = kDuplicateEntry then 1 else if retryable retCode then -2 else -1

def queryCode : Option Int → Int
  | none => -2
  | some retCode => if retryable retCode then -2 else -1

structure Collation where
  same : Bytes → Bytes → Bool
  refl : ∀ a, same a a = true
  symm : ∀ a b, same a b = same b a
  trans : ∀ a b c, same a b = true → same b c = true → same a c = true

def conflicts (col : Collation) (table : List User) (user : User) : Bool :=
  table.any fun row => row.vid = user.vid || col.same row.username user.username

def queryByUsername (col : Collation) (table : List User) (username : Bytes) : Option User :=
  table.find? fun row => col.same row.username username

end Dao

section System

inductive Event where
  | registered (username password : Bytes) (ret : Int) (vid : UInt64)
  | loggedIn (username password : Bytes) (ret : Int) (vid : UInt64) (name : Bytes)
  deriving DecidableEq, Repr

structure Shared where
  table : List User
  pending : List User
  log : List Event

def Shared.report (g : Shared) (event : Event) : Shared := { g with log := event :: g.log }

inductive Pc where
  | idle
  | inserting (user : User) (password : Bytes)
  | verifying (username password : Bytes) (found : Option User)

def loginCode (poolRet : Int) (same : Bool) (found : Option User) : Int :=
  match found with
  | none => if verifyCode poolRet same < 0 then -1 else 1
  | some _ => if verifyCode poolRet same < 0 then -1 else if verifyCode poolRet same = 1 then 2 else 0

def loginEvent (lib : Crypt) (poolRet : Int) (username password : Bytes) (found : Option User) : Event :=
  match found with
  | none => .loggedIn username password (loginCode poolRet false none) 0 []
  | some user =>
    let ret := loginCode poolRet (bcryptVerify lib password user.password) (some user)
    if ret = 0 then .loggedIn username password 0 user.vid user.username else .loggedIn username password ret 0 []

variable (lib : Crypt) (col : Collation)

inductive Move : Shared → Pc → Shared → Pc → Prop where
  | refused {g} (username password : Bytes) (code : Int) (refused : refusal username password = some code) :
      Move g .idle (g.report (.registered username password code 0)) .idle
  | hashFailed {g} (username password : Bytes) (accepted : refusal username password = none) :
      Move g .idle (g.report (.registered username password (-1) 0)) .idle
  | hashed {g} (username password : Bytes) (ms : UInt64) (rnd : UInt16) (salt : Option Bytes)
      (accepted : refusal username password = none) (some : bcryptHash lib salt password ≠ []) :
      Move g .idle g (.inserting ⟨newVid ms rnd,username,bcryptHash lib salt password⟩ password)
  | stored {g user password} (free : conflicts col g.table user = false) :
      Move g (.inserting user password)
        (Shared.report { g with table := user :: g.table } (.registered user.username password (insertCode (some 0)) user.vid))
        .idle
  | duplicate {g user password} (taken : conflicts col g.table user = true) :
      Move g (.inserting user password)
        (g.report (.registered user.username password (insertCode (some kDuplicateEntry)) 0)) .idle
  | noConnection {g user password} :
      Move g (.inserting user password) (g.report (.registered user.username password (insertCode none) 0)) .idle
  | failed {g user password} (retCode : Int) (error : retCode ≠ 0 ∧ retCode ≠ kDuplicateEntry) :
      Move g (.inserting user password)
        (Shared.report { g with pending := user :: g.pending }
          (.registered user.username password (insertCode (some retCode)) 0)) .idle
  | queried {g} (username password : Bytes) :
      Move g .idle g (.verifying username password (queryByUsername col g.table username))
  | queryFailed {g} (username password : Bytes) (reply : Option Int) (error : reply ≠ some 0) :
      Move g .idle (g.report (.loggedIn username password (queryCode reply) 0 [])) .idle
  | verified {g username password found} (poolRet : Int) :
      Move g (.verifying username password found) (g.report (loginEvent lib poolRet username password found)) .idle

def system : System Shared Pc where
  solo g g' := ∃ user ∈ g.pending, conflicts col g.table user = false ∧ g' = { g with table := user :: g.table }
  move := Move lib col

abbrev State (T : Type*) := Config Shared Pc T

def start (T : Type*) : State T := ⟨⟨[],[],[]⟩,fun _ => .idle⟩

end System

section Example

def zeroSalt : Bytes := List.replicate 16 0
def zeroSetting : Bytes := bytes "$2b$12$......................"
def horse : Bytes := bytes "correct-horse"
def horseHash : Bytes := bytes "$2b$12$......................0.1.iVEcBap0JHXeHSX/UPHflp2u36q"

def oneHash : Crypt where
  gensalt rnd := if rnd = zeroSalt then some zeroSetting else none
  crypt phrase setting := if phrase = horse ∧ (setting = zeroSetting ∨ setting = horseHash) then some horseHash else none

theorem sameTrans (a b c : Bytes) (left : decide (a = b) = true) (right : decide (b = c) = true) : decide (a = c) = true := by
  simp only [decide_eq_true_eq] at left right ⊢
  exact left.trans right

theorem sameSymm (a b : Bytes) : decide (a = b) = decide (b = a) := decide_eq_decide.mpr eq_comm

theorem sameRefl (a : Bytes) : decide (a = a) = true := decide_eq_true rfl

def binary : Collation := ⟨fun a b => a = b,sameRefl,sameSymm,sameTrans⟩

def alice : Bytes := bytes "alice"
def aliceRow : User := ⟨newVid 1700000000000 7,alice,horseHash⟩

theorem oneHashBcrypt : oneHash.Bcrypt := by
  have only {rnd setting phrase out : Bytes} (drawn : oneHash.gensalt rnd = some setting)
      (done : oneHash.crypt phrase setting = some out) : phrase = horse ∧ out = horseHash := by
    simp only [oneHash] at drawn done
    split at done
    · rename_i here
      exact ⟨here.1,(Option.some.inj done).symm⟩
    · cases done
  refine ⟨fun rnd setting phrase out drawn done => ?_,fun rnd setting phrase out drawn done => ?_⟩
  · obtain ⟨_,rfl⟩ := only drawn done
    decide
  · obtain ⟨rfl,rfl⟩ := only drawn done
    decide

def registering : State Unit := (start Unit).set () (start Unit).shared (.inserting aliceRow horse)
def registered : State Unit :=
  registering.set () (Shared.report { registering.shared with table := [aliceRow] }
    (.registered alice horse (insertCode (some 0)) aliceRow.vid)) .idle
def checking : State Unit := registered.set () registered.shared (.verifying alice horse (some aliceRow))
def entered : State Unit :=
  checking.set () (checking.shared.report (loginEvent oneHash 0 alice horse (some aliceRow))) .idle

theorem registeredRun : Reachable (Step (system oneHash binary)) (start Unit) registered := by
  have first : Step (system oneHash binary) (start Unit) registering := by
    have hashed : bcryptHash oneHash (some zeroSalt) horse = horseHash := by decide
    have moved : Move oneHash binary ⟨[],[],[]⟩ .idle ⟨[],[],[]⟩ _ :=
      .hashed alice horse 1700000000000 7 (some zeroSalt) (by decide) (by rw [hashed]; decide)
    rw [hashed] at moved
    exact .move () moved
  exact (Relation.ReflTransGen.single first).tail (.move () (.stored rfl))

def bob : Bytes := bytes "bob"
def bobRow : User := ⟨newVid 1700000001000 3,bob,horseHash⟩

def bobLost : State Unit :=
  (registered.set () registered.shared (.inserting bobRow horse)).set ()
    (Shared.report { registered.shared with pending := [bobRow] } (.registered bob horse (insertCode (some (-2013))) 0)) .idle

theorem bobRun : Reachable (Step (system oneHash binary)) (start Unit)
    ⟨{ bobLost.shared with table := [bobRow,aliceRow] },bobLost.locals⟩ := by
  have asked : Step (system oneHash binary) registered (registered.set () registered.shared (.inserting bobRow horse)) := by
    have hashed : bcryptHash oneHash (some zeroSalt) horse = horseHash := by decide
    have moved : Move oneHash binary registered.shared .idle registered.shared _ :=
      .hashed bob horse 1700000001000 3 (some zeroSalt) (by decide) (by rw [hashed]; decide)
    rw [hashed] at moved
    exact .move () moved
  have lost := (registeredRun.tail asked).tail (.move () (.failed (-2013) (by decide)))
  exact lost.tail (.solo ⟨bobRow,List.mem_cons_self,by decide,rfl⟩)

theorem enteredRun : Reachable (Step (system oneHash binary)) (start Unit) entered := by
  have found : queryByUsername binary registered.shared.table alice = some aliceRow := by decide
  have asked : Step (system oneHash binary) registered checking := by
    have moved : Move oneHash binary registered.shared .idle registered.shared _ := .queried alice horse
    rw [found] at moved
    exact .move () moved
  exact (registeredRun.tail asked).tail (.move () (.verified 0))

end Example

section Safety
variable (lib : Crypt) (col : Collation)

structure Origin (user : User) (password : Bytes) : Prop where
  accepted : refusal user.username password = none
  vid : ∃ ms rnd, user.vid = newVid ms rnd
  hash : ∃ salt, user.password = bcryptHash lib salt password
  hashed : user.password ≠ []

/- The account of a registration that was called with this password and has returned: with its
vid, or with an error where the answer of the INSERT was lost. -/
def Known (log : List Event) (user : User) : Prop := ∃ password ret vid,
  .registered user.username password ret vid ∈ log ∧ Origin lib user password ∧ (ret = 0 → vid = user.vid)

def Apart (a b : User) : Prop := a.vid ≠ b.vid ∧ col.same a.username b.username = false

def Told (table : List User) : Event → Prop
  | .registered username password ret vid =>
    ret = 0 → ∃ user ∈ table, user.vid = vid ∧ user.username = username ∧ Origin lib user password
  | .loggedIn username password ret vid name =>
    ret = 0 → ∃ user ∈ table, user.vid = vid ∧ user.username = name ∧ col.same name username = true ∧
      bcryptVerify lib password user.password = true

def OneEach (first second : Event) : Prop :=
  ∀ a p v b q w, first = .registered a p 0 v → second = .registered b q 0 w → col.same a b = false

structure Kept (g : Shared) : Prop where
  keys : g.table.Pairwise (Apart col)
  known : ∀ user ∈ g.table, Known lib g.log user
  waiting : ∀ user ∈ g.pending, Known lib g.log user
  told : ∀ event ∈ g.log, Told lib col g.table event
  once : g.log.Pairwise (OneEach col)

def Owned (g : Shared) : Pc → Prop
  | .idle => True
  | .inserting user password => Origin lib user password
  | .verifying username _ found => ∀ user, found = some user → user ∈ g.table ∧ col.same user.username username = true

variable {lib col}

theorem toldMore {table more : List User} (grown : table ⊆ more) {event : Event} (told : Told lib col table event) :
    Told lib col more event := by
  cases event with
  | registered username password ret vid =>
    intro ok
    obtain ⟨user,inside,rest⟩ := told ok
    exact ⟨user,grown inside,rest⟩
  | loggedIn username password ret vid name =>
    intro ok
    obtain ⟨user,inside,rest⟩ := told ok
    exact ⟨user,grown inside,rest⟩

theorem knownMore {log : List Event} {user : User} (event : Event) (known : Known lib log user) :
    Known lib (event :: log) user := by
  obtain ⟨password,ret,vid,called,rest⟩ := known
  exact ⟨password,ret,vid,.tail _ called,rest⟩

theorem ownedMore {g g' : Shared} (grown : g.table ⊆ g'.table) {pc : Pc} (owned : Owned lib col g pc) :
    Owned lib col g' pc := by
  cases pc with
  | idle => trivial
  | inserting => exact owned
  | verifying username password found =>
    intro user found
    obtain ⟨inside,named⟩ := owned user found
    exact ⟨grown inside,named⟩

theorem oneEachFailed {event : Event} {username password : Bytes} {ret : Int} {vid : UInt64} (failed : ret ≠ 0) :
    OneEach col (.registered username password ret vid) event := by
  intro a p v b q w here
  cases here
  exact absurd rfl failed

theorem reportFailed {g : Shared} (kept : Kept lib col g) {username password : Bytes} {ret : Int} {vid : UInt64}
    (failed : ret ≠ 0) : Kept lib col (g.report (.registered username password ret vid)) where
  keys := kept.keys
  known := fun user inside => knownMore _ (kept.known user inside)
  waiting := fun user inside => knownMore _ (kept.waiting user inside)
  told := List.forall_mem_cons.mpr ⟨fun ok => absurd ok failed,kept.told⟩
  once := List.pairwise_cons.mpr ⟨fun _ _ => oneEachFailed failed,kept.once⟩

theorem reportLogin {g : Shared} (kept : Kept lib col g) {username password : Bytes} {ret : Int} {vid : UInt64}
    {name : Bytes} (told : Told lib col g.table (.loggedIn username password ret vid name)) :
    Kept lib col (g.report (.loggedIn username password ret vid name)) where
  keys := kept.keys
  known := fun user inside => knownMore _ (kept.known user inside)
  waiting := fun user inside => knownMore _ (kept.waiting user inside)
  told := List.forall_mem_cons.mpr ⟨told,kept.told⟩
  once := List.pairwise_cons.mpr ⟨fun _ _ _ _ _ _ _ _ here => (by cases here),kept.once⟩

theorem freeApart {table : List User} {user : User}
    (free : conflicts col table user = false) : ∀ row ∈ table, Apart col user row := by
  intro row inside
  have apart := List.any_eq_false.mp free row inside
  simp only [Bool.or_eq_true, decide_eq_true_eq, not_or, Bool.not_eq_true] at apart
  exact ⟨Ne.symm apart.1,by rw [col.symm]; exact apart.2⟩

theorem insertKept {g : Shared} (kept : Kept lib col g) {user : User}
    (known : Known lib g.log user) (free : conflicts col g.table user = false) :
    Kept lib col { g with table := user :: g.table } where
  keys := List.pairwise_cons.mpr ⟨freeApart free,kept.keys⟩
  known := List.forall_mem_cons.mpr ⟨known,kept.known⟩
  waiting := kept.waiting
  told := fun event inside => toldMore (List.subset_cons_self _ _) (kept.told event inside)
  once := kept.once

theorem storedKept {g : Shared} (kept : Kept lib col g) {user : User}
    {password : Bytes} (origin : Origin lib user password) (free : conflicts col g.table user = false) :
    Kept lib col (Shared.report { g with table := user :: g.table } (.registered user.username password 0 user.vid)) := by
  have grown := List.subset_cons_self user g.table
  refine ⟨List.pairwise_cons.mpr ⟨freeApart free,kept.keys⟩,?_,fun row inside => knownMore _ (kept.waiting row inside),?_,?_⟩
  · exact List.forall_mem_cons.mpr ⟨⟨password,0,user.vid,List.mem_cons_self,origin,fun _ => rfl⟩,
      fun row inside => knownMore _ (kept.known row inside)⟩
  · exact List.forall_mem_cons.mpr ⟨fun _ => ⟨user,List.mem_cons_self,rfl,rfl,origin⟩,
      fun event inside => toldMore grown (kept.told event inside)⟩
  · refine List.pairwise_cons.mpr ⟨fun event inside => ?_,kept.once⟩
    intro a p v b q w here there
    cases here
    subst there
    obtain ⟨row,held,_,rfl,_⟩ := kept.told _ inside rfl
    exact (freeApart free row held).2

theorem queryFound {table : List User} {username : Bytes} {user : User}
    (found : queryByUsername col table username = some user) : user ∈ table ∧ col.same user.username username = true :=
  ⟨List.mem_of_find?_eq_some found,List.find?_some (p := fun row : User => col.same row.username username) found⟩

theorem refusalCode {username password : Bytes} {code : Int} (refused : refusal username password = some code) :
    code = 2 ∨ code = 3 := by
  unfold refusal at refused
  split at refused
  · exact .inl (Option.some.inj refused).symm
  split at refused
  · exact .inl (Option.some.inj refused).symm
  split at refused
  · exact .inr (Option.some.inj refused).symm
  · cases refused

theorem insertFailed {retCode : Int} (error : retCode ≠ 0) : insertCode (some retCode) ≠ 0 := by
  simp only [insertCode, if_neg error]
  split
  · decide
  split <;> decide

theorem queryFails (reply : Option Int) : queryCode reply ≠ 0 := by
  cases reply with
  | none => decide
  | some retCode =>
    simp only [queryCode]
    split <;> decide

theorem verifyZero {poolRet : Int} {matched : Bool} (ok : verifyCode poolRet matched = 0) : matched = true := by
  rw [verifyCode] at ok
  split at ok
  · cases ok
  · split at ok
    · assumption
    · cases ok

theorem verifyRange (poolRet : Int) (matched : Bool) :
    verifyCode poolRet matched = -1 ∨ verifyCode poolRet matched = 0 ∨ verifyCode poolRet matched = 1 := by
  rw [verifyCode]
  split
  · exact .inl rfl
  · split
    · exact .inr (.inl rfl)
    · exact .inr (.inr rfl)

theorem loginZero {poolRet : Int} {matched : Bool} {user : User} (ok : loginCode poolRet matched (some user) = 0) :
    matched = true := by
  rw [loginCode] at ok
  rcases verifyRange poolRet matched with code | code | code
  · rw [code] at ok
    cases ok
  · exact verifyZero code
  · rw [code] at ok
    cases ok

theorem loginMissing (poolRet : Int) : loginCode poolRet false none ≠ 0 := by
  rw [loginCode]
  split <;> decide

theorem loginTold {g : Shared} {username password : Bytes} {found : Option User}
    (owned : Owned lib col g (.verifying username password found)) (poolRet : Int) :
    Told lib col g.table (loginEvent lib poolRet username password found) := by
  cases found with
  | none => exact fun ok => absurd ok (loginMissing poolRet)
  | some user =>
    obtain ⟨inside,named⟩ := owned user rfl
    simp only [loginEvent]
    split
    · rename_i ok
      exact fun _ => ⟨user,inside,rfl,rfl,named,loginZero ok⟩
    · rename_i other
      exact fun ok => absurd ok other

theorem moveKept {g g' : Shared} {pc pc' : Pc} (kept : Kept lib col g)
    (owned : Owned lib col g pc) (moved : Move lib col g pc g' pc') :
    Kept lib col g' ∧ Owned lib col g' pc' ∧ g.table ⊆ g'.table := by
  cases moved with
  | refused username password code refused =>
    have failed : code ≠ 0 := by rcases refusalCode refused with rfl | rfl <;> decide
    exact ⟨reportFailed kept failed,trivial,List.Subset.refl _⟩
  | hashFailed => exact ⟨reportFailed kept (by decide),trivial,List.Subset.refl _⟩
  | hashed username password ms rnd salt accepted some => exact ⟨kept,⟨accepted,⟨ms,rnd,rfl⟩,⟨salt,rfl⟩,some⟩,List.Subset.refl _⟩
  | stored free => exact ⟨storedKept kept owned free,trivial,List.subset_cons_self _ _⟩
  | duplicate => exact ⟨reportFailed kept (by decide),trivial,List.Subset.refl _⟩
  | noConnection => exact ⟨reportFailed kept (by decide),trivial,List.Subset.refl _⟩
  | @failed user password retCode error =>
    have told : Kept lib col (g.report (.registered user.username password _ 0)) :=
      reportFailed kept (insertFailed error.1)
    refine ⟨⟨told.keys,told.known,List.forall_mem_cons.mpr ⟨?_,told.waiting⟩,told.told,told.once⟩,trivial,
      List.Subset.refl _⟩
    exact ⟨password,_,_,List.mem_cons_self,owned,fun ok => absurd ok (insertFailed error.1)⟩
  | queried username password => exact ⟨kept,fun user found => queryFound found,List.Subset.refl _⟩
  | queryFailed username password reply error =>
    exact ⟨reportLogin kept fun ok => absurd ok (queryFails reply),trivial,List.Subset.refl _⟩
  | @verified username password found poolRet =>
    have told := loginTold owned poolRet
    refine ⟨?_,trivial,List.Subset.refl _⟩
    cases found with
    | none => exact reportLogin kept told
    | some user =>
      simp only [loginEvent] at told ⊢
      split at told
      · rename_i ok
        rw [if_pos ok]
        exact reportLogin kept told
      · rename_i other
        rw [if_neg other]
        exact reportLogin kept told

variable {T : Type*} [DecidableEq T]

theorem runKept {c : State T} (run : Reachable (Step (system lib col)) (start T) c) :
    Kept lib col c.shared ∧ ∀ t, Owned lib col c.shared (c.locals t) := by
  refine reachableInvariant (fun c => Kept lib col c.shared ∧ ∀ t, Owned lib col c.shared (c.locals t)) ?_ ?_ run
  · exact ⟨⟨.nil,by simp [start],by simp [start],by simp [start],.nil⟩,fun _ => trivial⟩
  · rintro c d ⟨kept,owned⟩ taken
    cases taken with
    | solo landed =>
      obtain ⟨user,inside,free,rfl⟩ := landed
      exact ⟨insertKept kept (kept.waiting user inside) free,fun t => ownedMore (List.subset_cons_self _ _) (owned t)⟩
    | move t moved =>
      obtain ⟨kept',own,grown⟩ := moveKept kept (owned t) moved
      refine ⟨kept',fun u => ?_⟩
      by_cases self : u = t
      · subst self
        rw [setSelf]
        exact own
      · rw [setOther c _ _ self]
        exact ownedMore grown (owned u)

theorem hashVerifies (bcrypt : lib.Bcrypt) {salt : Option Bytes} {plain : Bytes} (hashed : bcryptHash lib salt plain ≠ []) :
    bcryptVerify lib plain (bcryptHash lib salt plain) = true := by
  cases salt with
  | none => exact absurd rfl hashed
  | some rnd =>
    simp only [bcryptHash] at hashed ⊢
    cases drawn : lib.gensalt rnd with
    | none =>
      rw [drawn] at hashed
      exact absurd rfl hashed
    | some setting =>
      simp only [drawn] at hashed ⊢
      cases done : lib.crypt (cString plain) setting with
      | none =>
        rw [done] at hashed
        exact absurd rfl hashed
      | some out =>
        obtain ⟨front,size⟩ := bcrypt.shape rnd setting (cString plain) out drawn done
        rw [Option.getD_some, bcryptVerify, if_neg (by rw [front, size]; simp), bcrypt.again rnd setting _ out drawn done]
        simp only [decide_eq_true_eq]
        rw [← size, List.take_left]

theorem namedFound {table : List User} (keys : table.Pairwise (Apart col)) {user : User} (inside : user ∈ table)
    {name : Bytes} (named : col.same user.username name = true) : queryByUsername col table name = some user := by
  induction table with
  | nil => cases inside
  | cons row rest ih =>
    obtain ⟨apart,keys⟩ := List.pairwise_cons.mp keys
    rw [queryByUsername, List.find?_cons]
    rcases List.mem_cons.mp inside with rfl | later
    · rw [named]
    · have other : col.same row.username name = false := by
        rw [← Bool.not_eq_true]
        intro like
        have clash := col.trans row.username name user.username like (by rw [col.symm]; exact named)
        rw [(apart user later).2] at clash
        cases clash
      rw [other]
      exact ih keys later

/- After a registration was answered with success every login with its password succeeds, with any
spelling of the name, as long as the query and the hasher work. -/
theorem registeredLogsIn (bcrypt : lib.Bcrypt) {c : State T} (run : Reachable (Step (system lib col)) (start T) c)
    {username password : Bytes} {vid : UInt64} (told : .registered username password 0 vid ∈ c.shared.log) {name : Bytes}
    (named : col.same username name = true) :
    loginEvent lib 0 name password (queryByUsername col c.shared.table name) = .loggedIn name password 0 vid username := by
  obtain ⟨kept,_⟩ := runKept run
  obtain ⟨user,inside,rfl,rfl,origin⟩ := kept.told _ told rfl
  obtain ⟨salt,hash⟩ := origin.hash
  have verified : bcryptVerify lib password user.password = true := by
    rw [hash]
    exact hashVerifies bcrypt (by rw [← hash]; exact origin.hashed)
  rw [namedFound kept.keys inside named]
  simp only [loginEvent, verified, loginCode]
  rfl

theorem aliceLogsIn : loginEvent oneHash 0 alice horse (queryByUsername binary registered.shared.table alice) =
    .loggedIn alice horse 0 aliceRow.vid alice :=
  registeredLogsIn oneHashBcrypt registeredRun List.mem_cons_self (binary.refl alice)

end Safety

end Uco.Accounts
