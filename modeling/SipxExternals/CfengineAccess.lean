import Mathlib.Data.List.Basic

namespace Cfengine.Access
open List

-- A rule of an access list. Paths are shorter than the buffer they are copied to.
structure Auth (Item : Type) where
  path : List Char
  accesslist : List Item
  maproot : List Item
  encrypt : Bool
  literal : Bool
  classpattern : Bool
  fits : path.length < 4095

structure Connection where
  ipaddr : String
  hostname : String
  rsaAuth : Bool
  maproot : Bool

structure Resolved where
  name : List Char
  rooted : ['/'] <+: name

-- What lies outside of the decision: list and pattern matching, and the file system.
structure World (Item : Type) where
  isMatchItemIn : List Item → String → Bool
  isRegexItemIn : List Item → String → Bool
  fullTextMatch : List Char → List Char → Bool
  mapAddress : String → String
  resolveFilename : List Char → Resolved
  lstat : List Char → Bool
  cfstat : List Char → Bool

def World.lists (world : World Item) (conn : Connection) (items : List Item) : Bool :=
  world.isMatchItemIn items (world.mapAddress conn.ipaddr) || world.isRegexItemIn items conn.hostname

def covers (transpath transrequest : List Char) : Bool :=
  (decide (transrequest.length > transpath.length) && transpath.isPrefixOf transrequest &&
      transrequest.getD transpath.length '\x00' == '/') ||
    transpath == transrequest || transpath == ['/']

structure Scan where
  transpath : List Char
  access : Bool
  maproot : Bool

def admitLoop (world : World Item) (conn : Connection) (encrypt : Bool) (transrequest : List Char) :
    List (Auth Item) → Scan → Scan
  | [],scan => scan
  | ap :: rest,scan =>
    if covers ap.path transrequest then
      -- a rule for a file that cannot be found is passed over
      if world.cfstat ap.path = false then
        admitLoop world conn encrypt transrequest rest { scan with transpath := ap.path }
      else if encrypt = false ∧ ap.encrypt = true then ⟨ap.path,false,scan.maproot⟩
      else ⟨ap.path,scan.access || world.lists conn ap.accesslist,scan.maproot || world.lists conn ap.maproot⟩
    else admitLoop world conn encrypt transrequest rest { scan with transpath := ap.path }

def denyLoop (world : World Item) (conn : Connection) : List (Auth Item) → Bool → Bool
  | [],access => access
  | ap :: rest,access =>
    if world.isRegexItemIn ap.accesslist conn.hostname then false else denyLoop world conn rest access

def accessControl (world : World Item) (reqPath : List Char) (conn : Connection) (encrypt : Bool)
    (vAdmit vDeny : List (Auth Item)) : Bool × Connection :=
  let transrequest := (world.resolveFilename reqPath).name
  if world.lstat transrequest = false then (false,conn)
  else if vAdmit.isEmpty then (false,conn)
  else
    let scan := admitLoop world conn encrypt transrequest vAdmit ⟨[],false,false⟩
    let access :=
      if scan.transpath.isPrefixOf transrequest then denyLoop world conn vDeny scan.access
      else scan.access
    (access,{ conn with maproot := scan.maproot && conn.rsaAuth })

section
variable (world : World Item) (conn : Connection) (encrypt : Bool) (transrequest : List Char)

def ruling (vAdmit : List (Auth Item)) : Option (Auth Item) :=
  vAdmit.find? fun ap => covers ap.path transrequest && world.cfstat ap.path

def Admits (ap : Auth Item) : Prop :=
  (encrypt = true ∨ ap.encrypt = false) ∧ world.lists conn ap.accesslist = true

theorem ruling_passed (passed : (covers ap.path transrequest && world.cfstat ap.path) = false) :
    ruling world transrequest (ap :: rest) = ruling world transrequest rest := by
  unfold ruling
  rw [find?_cons,passed]

theorem admitLoop_passed (passed : (covers ap.path transrequest && world.cfstat ap.path) = false) :
    admitLoop world conn encrypt transrequest (ap :: rest) scan =
      admitLoop world conn encrypt transrequest rest { scan with transpath := ap.path } := by
  rw [admitLoop]
  split
  · rename_i covered
    have missing : world.cfstat ap.path = false := by simpa [covered] using passed
    rw [if_pos missing]
  · rfl

theorem admitLoop_ruled (ruled : (covers ap.path transrequest && world.cfstat ap.path) = true) :
    (admitLoop world conn encrypt transrequest (ap :: rest) scan).transpath = ap.path ∧
      ((admitLoop world conn encrypt transrequest (ap :: rest) scan).access = true ↔
        (encrypt = true ∨ ap.encrypt = false) ∧ (scan.access = true ∨ world.lists conn ap.accesslist = true)) := by
  obtain ⟨covered,present⟩ := Bool.and_eq_true_iff.mp ruled
  rw [admitLoop,if_pos covered,if_neg (by simp [present])]
  by_cases unmet : encrypt = false ∧ ap.encrypt = true
  · simp [unmet.1,unmet.2]
  rw [if_neg unmet]
  have met : encrypt = true ∨ ap.encrypt = false := by
    cases encrypt <;> cases known : ap.encrypt <;> simp_all
  simp [met]

theorem admitLoop_none (scan : Scan) (none : ruling world transrequest vAdmit = none) :
    (admitLoop world conn encrypt transrequest vAdmit scan).access = scan.access := by
  induction vAdmit generalizing scan with
  | nil => rfl
  | cons ap rest ih =>
    cases passed : covers ap.path transrequest && world.cfstat ap.path with
    | true =>
      unfold ruling at none
      rw [find?_cons,passed] at none
      cases none
    | false =>
      rw [ruling_passed world transrequest passed] at none
      rw [admitLoop_passed world conn encrypt transrequest passed]
      exact ih _ none

theorem admitLoop_found (scan : Scan) (closed : scan.access = false)
    (found : ruling world transrequest vAdmit = some ap) :
    (admitLoop world conn encrypt transrequest vAdmit scan).transpath = ap.path ∧
      ((admitLoop world conn encrypt transrequest vAdmit scan).access = true ↔ Admits world conn encrypt ap) := by
  induction vAdmit generalizing scan with
  | nil => cases found
  | cons first rest ih =>
    cases passed : covers first.path transrequest && world.cfstat first.path with
    | true =>
      unfold ruling at found
      rw [find?_cons,passed] at found
      cases found
      obtain ⟨path,access⟩ := admitLoop_ruled world conn encrypt transrequest passed
      refine ⟨path,access.trans ?_⟩
      simp [closed,Admits]
    | false =>
      rw [ruling_passed world transrequest passed] at found
      rw [admitLoop_passed world conn encrypt transrequest passed]
      exact ih _ closed found

theorem denyLoop_eq : denyLoop world conn vDeny access = true ↔
      access = true ∧ ∀ ap ∈ vDeny, world.isRegexItemIn ap.accesslist conn.hostname = false := by
  induction vDeny with
  | nil => simp [denyLoop]
  | cons ap rest ih =>
    unfold denyLoop
    by_cases listed : world.isRegexItemIn ap.accesslist conn.hostname = true
    · simp [listed]
    · rw [if_neg listed,ih]
      simp [Bool.eq_false_iff.mpr listed]

theorem covers_within {request : Resolved} (covered : covers path request.name = true) :
    path.isPrefixOf request.name = true := by
  unfold covers at covered
  simp only [Bool.or_eq_true,Bool.and_eq_true,beq_iff_eq] at covered
  rcases covered with (⟨⟨_,inside⟩,_⟩ | equal) | root
  · exact inside
  · rw [equal]
    exact isPrefixOf_iff_prefix.mpr (prefix_refl _)
  · rw [root]
    exact isPrefixOf_iff_prefix.mpr request.rooted

end

theorem accessControl_eq (conn : Connection) (encrypt : Bool)
    (vAdmit vDeny : List (Auth Item)) (present : world.lstat (world.resolveFilename reqPath).name = true) :
    (accessControl world reqPath conn encrypt vAdmit vDeny).1 = true ↔
      (∃ ap, ruling world (world.resolveFilename reqPath).name vAdmit = some ap ∧ Admits world conn encrypt ap) ∧
          ∀ ap ∈ vDeny, world.isRegexItemIn ap.accesslist conn.hostname = false := by
  unfold accessControl
  dsimp only
  rw [if_neg (by simp [present])]
  cases found : ruling world (world.resolveFilename reqPath).name vAdmit with
  | none =>
    have kept := admitLoop_none world conn encrypt (world.resolveFilename reqPath).name ⟨[],false,false⟩ found
    split
    · simp
    split
    · rw [denyLoop_eq,kept]
      simp
    · rw [kept]
      simp
  | some ap =>
    have ruled := find?_some found
    have inside := covers_within (Bool.and_eq_true_iff.mp ruled).1
    have present := mem_of_find?_eq_some found
    obtain ⟨path,access⟩ := admitLoop_found world conn encrypt (world.resolveFilename reqPath).name
      ⟨[],false,false⟩ rfl found
    rw [if_neg (by simpa using ne_nil_of_mem present),path,if_pos inside,denyLoop_eq,access]
    simp

-- Each deny rule that names the host covers the request, and each one that covers it and
-- has the client on its list names the host.
def PlainDenials (world : World Item) (conn : Connection) (transrequest : List Char)
    (vDeny : List (Auth Item)) : Prop :=
  ∀ ap ∈ vDeny, world.isRegexItemIn ap.accesslist conn.hostname =
    (covers ap.path transrequest && world.lists conn ap.accesslist)

theorem accessControl_grants (world : World Item) (reqPath : List Char) (conn : Connection)
    (encrypt : Bool) (vAdmit vDeny : List (Auth Item))
    (present : world.lstat (world.resolveFilename reqPath).name = true) :
    ((accessControl world reqPath conn encrypt vAdmit vDeny).1 = true →
      (∃ ap, ruling world (world.resolveFilename reqPath).name vAdmit = some ap ∧ Admits world conn encrypt ap) ∧
          ∀ ap ∈ vDeny, covers ap.path (world.resolveFilename reqPath).name = true →
            world.isRegexItemIn ap.accesslist conn.hostname = false) ∧
    (PlainDenials world conn (world.resolveFilename reqPath).name vDeny →
      ((accessControl world reqPath conn encrypt vAdmit vDeny).1 = true ↔
        (∃ ap, ruling world (world.resolveFilename reqPath).name vAdmit = some ap ∧ Admits world conn encrypt ap) ∧
            ∀ ap ∈ vDeny, covers ap.path (world.resolveFilename reqPath).name = true →
              world.lists conn ap.accesslist = false)) := by
  have exactly := accessControl_eq conn encrypt vAdmit vDeny present
  constructor
  · intro granted
    obtain ⟨admitted,undenied⟩ := exactly.mp granted
    exact ⟨admitted,fun ap member _ => undenied ap member⟩
  intro plain
  rw [exactly]
  constructor
  · rintro ⟨admitted,undenied⟩
    refine ⟨admitted,fun ap member covered => ?_⟩
    have same := plain ap member
    rw [undenied ap member,covered,Bool.true_and] at same
    exact same.symm
  rintro ⟨admitted,undenied⟩
  refine ⟨admitted,fun ap member => ?_⟩
  rw [plain ap member]
  cases covered : covers ap.path (world.resolveFilename reqPath).name with
  | false => rfl
  | true => rw [undenied ap member covered,Bool.and_false]

def linked : World String where
  isMatchItemIn items address := items.contains address
  isRegexItemIn items host := items.contains host
  fullTextMatch pattern text := pattern == text
  mapAddress address := address
  resolveFilename _ := ⟨['/','a','/','l'],by decide⟩
  lstat name := name == ['/','a'] || name == ['/','a','/','l']
  cfstat name := name == ['/','a']

def client : Connection := ⟨"10.0.0.1","client",true,false⟩
def dangling : Auth String := ⟨['/','a','/','l'],["client"],[],false,false,false,by decide⟩
def directory : Auth String := ⟨['/','a'],["client"],[],false,false,false,by decide⟩
def otherDenied : Auth String := ⟨['/','a'],["10.0.0.9"],[],false,false,false,by decide⟩

theorem accessControl_grants_directory :
    (accessControl linked ['l'] client false [directory] [otherDenied]).1 = true := by
  have exactly := (accessControl_grants linked ['l'] client false [directory] [otherDenied] (by decide)).2
    (by intro ap member; cases mem_singleton.mp member; decide)
  exact exactly.mpr ⟨⟨directory,rfl,.inr rfl,by decide⟩,by intro ap member _; cases mem_singleton.mp member; decide⟩

-- The first rule that covers the link is for the link itself, which has no file
-- behind it; the request is granted by the rule for the directory.
theorem dangling_passed : (accessControl linked ['l'] client false [dangling,directory] []).1 = true ∧
      ¬ ∃ ap, [dangling,directory].find?
          (fun ap => covers ap.path (linked.resolveFilename ['l']).name) = some ap ∧
        linked.cfstat ap.path = true ∧ Admits linked client false ap := by
  refine ⟨by decide,?_⟩
  rintro ⟨ap,found,present,_⟩
  cases found
  exact absurd present (by decide)

end Cfengine.Access
