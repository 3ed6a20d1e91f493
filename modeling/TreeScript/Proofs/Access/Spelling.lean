import Mathlib.Data.List.Basic
import TreeScript.Access

/-!
# TreeScript — paths are judged as they are spelt

A name that is a single dot leads nowhere new, so a path has many spellings. The guard
looks at the text of a path only. Two spellings of one place are therefore told apart by
some guard, unless they are the same text; only the configuration files of the common
folder are out of reach of every rule. In particular a dot in front takes a path out of
all that a guard with ordinary settings protects.

* `segments` — what a path names, whichever way it is spelt;
* `eq_of_segments` — spellings of one place that agree up to letter case are equal;
* `Alike`, `alike_iff` — which spellings every guard decides alike;
* `PlainGuard`, `PlainGuard.read_dotted`, `PlainGuard.modify_dotted` — a dot in front;
* `decides_by_spelling` — both together.
-/

namespace TreeScript.Access

open TreeScript.Text

-- ---------------------------------------------------------------------------
-- Letter case
-- ---------------------------------------------------------------------------

/-- Folding the case makes no slash or dot out of another character. -/
theorem toLower_eq_iff {c d : Char} (hd : d = '/' ∨ d = '.') : c.toLower = d ↔ c = d := by
  constructor
  · intro h
    unfold Char.toLower at h
    split at h
    next hupper =>
      have hval := congrArg (fun x : Char => x.val.toNat) h
      have hlow := UInt32.le_iff_toNat_le.1 hupper.1
      have hhigh := UInt32.le_iff_toNat_le.1 hupper.2
      rcases hd with rfl | rfl <;> simp [UInt32.toNat_add] at hval hlow hhigh <;> omega
    next => exact h
  · intro h
    subst h
    rcases hd with rfl | rfl <;> decide

/-- Only a dot is a dot up to letter case. -/
theorem foldCase_eq_dot_iff {cs : List Char} : foldCase cs = ['.'] ↔ cs = ['.'] := by
  unfold foldCase
  rw [List.map_eq_singleton_iff]
  constructor
  · rintro ⟨c, rfl, hc⟩
    rw [(toLower_eq_iff (Or.inr rfl)).1 hc]
  · intro h
    exact ⟨'.', h, by decide⟩

/-- It does not matter whether letter case is dropped before or after a path is split. -/
theorem splitOn_foldCase (cs : List Char) :
    (foldCase cs).splitOn '/' = (cs.splitOn '/').map foldCase := by
  unfold foldCase List.splitOn
  induction cs with
  | nil => simp
  | cons c cs ih =>
    rw [List.map_cons, List.splitOnP_cons_eq_if_modifyHead, List.splitOnP_cons_eq_if_modifyHead, ih]
    by_cases hc : c = '/'
    · subst hc
      simp
    · have hlower : c.toLower ≠ '/' := fun h => hc ((toLower_eq_iff (Or.inl rfl)).1 h)
      simp only [beq_iff_eq, hc, hlower, if_false]
      cases cs.splitOnP fun x => x == '/' <;> simp

-- ---------------------------------------------------------------------------
-- Spellings of one place
-- ---------------------------------------------------------------------------

/-- What a path names: the names between its slashes, without the dots that stay where
they are. -/
def segments (path : String) : List (List Char) := (path.toList.splitOn '/').filter (· != ['.'])

/-- Lists that agree under `f`, and agree in what passes a test that `f` decides, are equal. -/
theorem eq_of_map_of_filter {α β : Type} {f : α → β} {P : α → Bool}
    (hP : ∀ a b, f a = f b → P a = P b) (hfail : ∀ a b, f a = f b → P a = false → a = b) :
    {as bs : List α} → as.map f = bs.map f → as.filter P = bs.filter P → as = bs
  | [], bs, hmap, _ => (List.map_eq_nil_iff.1 (hmap.symm)).symm
  | a :: as, [], hmap, _ => by simp at hmap
  | a :: as, b :: bs, hmap, hfilter => by
    rw [List.map_cons, List.map_cons, List.cons.injEq] at hmap
    obtain ⟨hab, hrest⟩ := hmap
    rw [List.filter_cons, List.filter_cons, ← hP a b hab] at hfilter
    cases ha : P a with
    | true =>
      simp only [ha, if_true, List.cons.injEq] at hfilter
      rw [hfilter.1, eq_of_map_of_filter hP hfail hrest hfilter.2]
    | false =>
      simp only [ha, Bool.false_eq_true, if_false] at hfilter
      rw [hfail a b hab ha, eq_of_map_of_filter hP hfail hrest hfilter]

/-- Two spellings of one place that agree up to letter case are the same text. -/
theorem eq_of_segments {p q : String} (hsame : segments p = segments q)
    (hfold : foldCase p.toList = foldCase q.toList) : p = q := by
  have hmap : (p.toList.splitOn '/').map foldCase = (q.toList.splitOn '/').map foldCase := by
    rw [← splitOn_foldCase, ← splitOn_foldCase, hfold]
  have hdot : ∀ a b : List Char, foldCase a = foldCase b → (a = ['.'] ↔ b = ['.']) := by
    intro a b hab
    rw [← foldCase_eq_dot_iff, hab, foldCase_eq_dot_iff]
  have hsplit : p.toList.splitOn '/' = q.toList.splitOn '/' := by
    refine eq_of_map_of_filter (P := (· != ['.'])) (fun a b hab => ?_) (fun a b hab ha => ?_) hmap
      hsame
    · rw [Bool.eq_iff_iff, bne_iff_ne, bne_iff_ne, not_iff_not]
      exact hdot a b hab
    · have ha' : a = ['.'] := by simpa using ha
      rw [ha', (hdot a b hab).1 ha']
  have hlist := congrArg (List.intercalate ['/']) hsplit
  rw [List.intercalate_splitOn, List.intercalate_splitOn] at hlist
  exact String.toList_injective hlist

theorem startsWith_self (p : String) : startsWith p p = true := by
  simp [startsWith, startsFolded]

/-- Of two different spellings of one place, one does not begin with the other. -/
theorem not_startsWith_of_ne {p q : String} (hsame : segments p = segments q) (hne : p ≠ q) :
    startsWith q p = false ∨ startsWith p q = false := by
  by_contra h
  rw [not_or, Bool.not_eq_false, Bool.not_eq_false] at h
  obtain ⟨hpq, hqp⟩ := h
  have hpq : foldCase p.toList <+: foldCase q.toList := List.isPrefixOf_iff_prefix.1 hpq
  have hqp : foldCase q.toList <+: foldCase p.toList := List.isPrefixOf_iff_prefix.1 hqp
  exact hne (eq_of_segments hsame (hpq.eq_of_length (Nat.le_antisymm hpq.length_le hqp.length_le)))

-- ---------------------------------------------------------------------------
-- Which spellings are decided alike
-- ---------------------------------------------------------------------------

/-- Every guard gives the same answers about two paths, whoever asks. -/
def Alike (p q : String) : Prop :=
  ∀ (g : Guard) (t : Ticket), (g.read t p = .ok () ↔ g.read t q = .ok ()) ∧
    (g.modify t p = .ok () ↔ g.modify t q = .ok ())

/-- Paths that are decided alike are so in either order. -/
theorem Alike.symm {p q : String} (h : Alike p q) : Alike q p :=
  fun g t => ⟨(h g t).1.symm, (h g t).2.symm⟩

/-- A path of a configuration file in the common folder: everybody may change it, and nobody
but the role `root` may read it. -/
def InCommonConfig (path : String) : Prop :=
  startsWith path "/common/" = true ∧ isConfigFile path = true ∧ isFolderPath path = false

/-- A path is allowed if it is sane, and the rules allow it or `root` asks. -/
theorem check_eq_ok_iff {t : Ticket} {path : String} {allowed : Bool} :
    Guard.check t path allowed = .ok () ↔
      isSane path = true ∧ (t.isRoot = true ∨ allowed = true) := by
  unfold Guard.check
  cases isSane path <;> cases t.isRoot <;> cases allowed <;> simp

/-- Who is not `root` may read a sane path if the rules for folders or for files say so. -/
theorem read_eq_ok_iff {g : Guard} {t : Ticket} {path : String} (hroot : t.isRoot = false) :
    g.read t path = .ok () ↔ isSane path = true ∧
      (if isFolderPath path then g.mayReadFolder t path else g.mayReadFile t path) = true := by
  simp [Guard.read, check_eq_ok_iff, hroot]

/-- Who is not `root` may change a sane path if the rules say so. -/
theorem modify_eq_ok_iff {g : Guard} {t : Ticket} {path : String} (hroot : t.isRoot = false) :
    g.modify t path = .ok () ↔ isSane path = true ∧ g.mayModify t path = true := by
  simp [Guard.modify, check_eq_ok_iff, hroot]

/-- A single rule decides about the paths that begin with its own, and about no other. -/
theorem decide_single {g : Guard} {r : AccessRule} (hrules : g.rules = [r]) (hrole : r.role = "*")
    (t : Ticket) (path : String) (otherwise : Bool) :
    g.decide t path r.operation otherwise =
      if startsWith path r.path then r.verdict == .allow else otherwise := by
  unfold Guard.decide AccessRule.appliesTo
  rw [hrules]
  cases hstart : startsWith path r.path with
  | true => simp [hrole, hstart]
  | false => simp [hstart]

theorem decide_nil {g : Guard} (hrules : g.rules = []) (t : Ticket) (path : String)
    (operation : Operation) (otherwise : Bool) :
    g.decide t path operation otherwise = otherwise := by
  simp [Guard.decide, hrules]

/-- A ticket whose home is too long a path to be the beginning of `path`. -/
def stranger (path : String) : Ticket := { username := path }

/-- Nobody whose home is that long is `root`. -/
theorem isRoot_stranger (path : String) : (stranger path).isRoot = false := rfl

/-- The path does not begin with that home. -/
theorem not_startsWith_home_stranger (path : String) :
    startsWith path (home (stranger path)) = false := by
  rw [startsWith, startsFolded, Bool.eq_false_iff, ne_eq, List.isPrefixOf_iff_prefix]
  intro h
  have hlen := h.length_le
  simp [foldCase, home, stranger] at hlen
  omega

/-- A rule that allows changing one path tells it from those that do not begin with it. -/
theorem Alike.startsWith_common {p q : String} (hp : isSane p = true) (hpq : Alike p q)
    (hstart : startsWith q p = false) : startsWith q "/common/" = true := by
  by_contra hcommon
  rw [Bool.not_eq_true] at hcommon
  let r : AccessRule := ⟨"*", p, .allow, .write⟩
  let g : Guard := { rules := [r] }
  have hdecide : ∀ path, g.decide (stranger q) path .write false = startsWith path p := by
    intro path
    have h := decide_single (g := g) (r := r) rfl rfl (stranger q) path false
    rw [show r.operation = .write from rfl] at h
    rw [h]
    cases startsWith path r.path <;> rfl
  have hyes : g.modify (stranger q) p = .ok () := by
    rw [modify_eq_ok_iff (isRoot_stranger q)]
    exact ⟨hp, by simp [Guard.mayModify, hdecide, startsWith_self]⟩
  have hno := (modify_eq_ok_iff (isRoot_stranger q)).1 (((hpq g (stranger q)).2).1 hyes)
  simp [Guard.mayModify, hdecide, hstart, hcommon, not_startsWith_home_stranger] at hno

/-- Without rules, only the common folder may be changed by a stranger. -/
theorem Alike.startsWith_common_left {p q : String} (hq : isSane q = true) (hpq : Alike p q)
    (hcommon : startsWith q "/common/" = true) : startsWith p "/common/" = true := by
  by_contra hp
  rw [Bool.not_eq_true] at hp
  have hyes : Guard.modify {} (stranger p) q = .ok () := by
    rw [modify_eq_ok_iff (isRoot_stranger p)]
    exact ⟨hq, by simp [Guard.mayModify, hcommon]⟩
  have hno := (modify_eq_ok_iff (isRoot_stranger p)).1 (((hpq {} (stranger p)).2).2 hyes)
  simp [Guard.mayModify, decide_nil, hp, not_startsWith_home_stranger] at hno

/-- No path begins like two of the folders that the guard knows by name. -/
theorem not_startsWith_users {p : String} (hcommon : startsWith p "/common/" = true) :
    startsWith p "/users/" = false := by
  rw [Bool.eq_false_iff]
  intro husers
  have h₁ := List.isPrefixOf_iff_prefix.1 hcommon
  have h₂ := List.isPrefixOf_iff_prefix.1 husers
  obtain ⟨a, ha⟩ := h₁
  obtain ⟨b, hb⟩ := h₂
  rw [← hb] at ha
  exact absurd (congrArg (List.take 2) ha) (by simp [foldCase])

/-- A path does not begin with what has another first letter. -/
theorem not_startsWith_of_head {p front : String} {c d : Char} (hp : p.toList.head? = some c)
    (hfront : front.toList.head? = some d) (hne : c.toLower ≠ d.toLower) :
    startsWith p front = false := by
  rw [startsWith, startsFolded, Bool.eq_false_iff, ne_eq, List.isPrefixOf_iff_prefix]
  rintro ⟨rest, hrest⟩
  have h := congrArg List.head? hrest
  obtain ⟨ps, hps⟩ := List.head?_eq_some_iff.1 hp
  obtain ⟨fs, hfs⟩ := List.head?_eq_some_iff.1 hfront
  simp [foldCase, hps, hfs] at h
  exact hne h.symm

theorem head_of_isSane {p : String} (hp : isSane p = true) : p.toList.head? = some '/' := by
  simp only [isSane, Bool.and_eq_true, beq_iff_eq] at hp
  exact hp.1.1.1

/-- A guard that keeps nothing off but what one rule denies. -/
def denying (path : String) : Guard :=
  { dataPath := "*", authFile := "", rules := [⟨"*", path, .deny, .read⟩] }

/-- Whether a path of the common folder may be read. -/
theorem read_denying {p q : String} (hq : isSane q = true)
    (hcommon : startsWith q "/common/" = true) :
    (denying p).read {} q = .ok () ↔
      startsWith q p = false ∧ (isFolderPath q = true ∨ isConfigFile q = false) := by
  have hhead := head_of_isSane hq
  have hdata : startsWith q "*" = false := not_startsWith_of_head hhead rfl (by decide)
  have hauth : sameFolded q.toList "".toList = false := by
    obtain ⟨qs, hqs⟩ := List.head?_eq_some_iff.1 hhead
    simp [sameFolded, foldCase, hqs]
  have hdecide : (denying p).decide {} q .read true = !startsWith q p := by
    have h := decide_single (g := denying p) (r := ⟨"*", p, .deny, .read⟩) rfl rfl {} q true
    rw [show (AccessRule.mk "*" p .deny .read).operation = .read from rfl] at h
    rw [h]
    cases startsWith q p <;> rfl
  rw [read_eq_ok_iff (by decide)]
  simp only [Guard.mayReadFolder, Guard.mayReadFile, hdecide, not_startsWith_users hcommon,
    show (denying p).dataPath = "*" from rfl, show (denying p).authFile = "" from rfl, hdata, hauth,
    hq]
  cases isFolderPath q <;> cases isConfigFile q <;> cases startsWith q p <;> simp

/-- Spellings that every guard decides alike are equal, or paths that no rule reaches. -/
theorem Alike.inCommonConfig {p q : String} (hp : isSane p = true) (hq : isSane q = true)
    (hpq : Alike p q) (hstart : startsWith q p = false) : InCommonConfig p ∧ InCommonConfig q := by
  have hcommon := hpq.startsWith_common hp hstart
  have hcommon' := hpq.startsWith_common_left hq hcommon
  -- the rule about `p` denies it, so it must deny `q` too
  have hq' : ¬ (isFolderPath q = true ∨ isConfigFile q = false) := by
    intro hkind
    have hread := ((hpq (denying p) {}).1).2 ((read_denying hq hcommon).2 ⟨hstart, hkind⟩)
    have hself := ((read_denying hp hcommon').1 hread).1
    rw [startsWith_self] at hself
    simp at hself
  rw [not_or, Bool.not_eq_true, Bool.not_eq_false] at hq'
  -- a rule about another path denies neither
  have hp' : ¬ (isFolderPath p = true ∨ isConfigFile p = false) := by
    intro hkind
    have hother : startsWith p "*" = false :=
      not_startsWith_of_head (head_of_isSane hp) rfl (by decide)
    have hread := ((hpq (denying "*") {}).1).1 ((read_denying hp hcommon').2 ⟨hother, hkind⟩)
    rcases ((read_denying hq hcommon).1 hread).2 with hfolder | hconfig
    · simp [hq'.1] at hfolder
    · simp [hq'.2] at hconfig
  rw [not_or, Bool.not_eq_true, Bool.not_eq_false] at hp'
  exact ⟨⟨hcommon', hp'.2, hp'.1⟩, ⟨hcommon, hq'.2, hq'.1⟩⟩

/-- Only `root` may read a configuration file in the common folder. -/
theorem InCommonConfig.read_iff {p : String} (hp : InCommonConfig p) (hsane : isSane p = true)
    (g : Guard) (t : Ticket) : g.read t p = .ok () ↔ t.isRoot = true := by
  obtain ⟨-, hconfig, hfile⟩ := hp
  simp [Guard.read, check_eq_ok_iff, hsane, hfile, Guard.mayReadFile, hconfig]

theorem InCommonConfig.modify_eq_ok {p : String} (hp : InCommonConfig p) (hsane : isSane p = true)
    (g : Guard) (t : Ticket) : g.modify t p = .ok () := by
  simp [Guard.modify, check_eq_ok_iff, hsane, Guard.mayModify, hp.1]

/-- Two spellings of one place are decided alike only if they are the same text, or no rule
reaches either. -/
theorem alike_iff {p q : String} (hp : isSane p = true) (hq : isSane q = true)
    (hsame : segments p = segments q) :
    Alike p q ↔ p = q ∨ InCommonConfig p ∧ InCommonConfig q := by
  constructor
  · intro hpq
    by_cases heq : p = q
    · exact Or.inl heq
    · refine Or.inr ?_
      rcases not_startsWith_of_ne hsame heq with hstart | hstart
      · exact hpq.inCommonConfig hp hq hstart
      · exact (hpq.symm.inCommonConfig hq hp hstart).symm
  · rintro (rfl | ⟨hp', hq'⟩) g t
    · exact ⟨Iff.rfl, Iff.rfl⟩
    · exact ⟨(hp'.read_iff hp g t).trans (hq'.read_iff hq g t).symm,
        iff_of_true (hp'.modify_eq_ok hp g t) (hq'.modify_eq_ok hq g t)⟩

-- ---------------------------------------------------------------------------
-- A dot in front
-- ---------------------------------------------------------------------------

/-- The same path with a dot in front of its first name. -/
def dotted (path : String) : String := "/." ++ path

/-- The dot stands in front as a name of its own. -/
theorem toList_dotted (p : String) : (dotted p).toList = '/' :: '.' :: p.toList := by
  simp [dotted]

/-- A path with a slash in front has an empty name in front. -/
theorem splitOn_cons_slash (cs : List Char) :
    ('/' :: cs).splitOn '/' = [] :: cs.splitOn '/' := by
  simp [List.splitOn, List.splitOnP_cons_eq_if_modifyHead]

/-- A path with a dot and a slash in front has the dot as its first name. -/
theorem splitOn_cons_dot_slash (cs : List Char) :
    ('.' :: '/' :: cs).splitOn '/' = ['.'] :: cs.splitOn '/' := by
  simp [List.splitOn, List.splitOnP_cons_eq_if_modifyHead]

theorem segments_dotted {p : String} (hp : isSane p = true) : segments (dotted p) = segments p := by
  obtain ⟨cs, hcs⟩ := List.head?_eq_some_iff.1 (head_of_isSane hp)
  rw [segments, segments, toList_dotted, hcs, splitOn_cons_slash, splitOn_cons_dot_slash,
    splitOn_cons_slash]
  simp

theorem isSane_dotted {p : String} (hp : isSane p = true) : isSane (dotted p) = true := by
  obtain ⟨cs, hcs⟩ := List.head?_eq_some_iff.1 (head_of_isSane hp)
  rw [isSane, hcs] at hp
  rw [isSane, toList_dotted, hcs]
  simpa [hasPair] using hp

/-- A dot in front leaves a folder's path one. -/
theorem isFolderPath_dotted {p : String} (hp : isSane p = true) :
    isFolderPath (dotted p) = isFolderPath p := by
  obtain ⟨cs, hcs⟩ := List.head?_eq_some_iff.1 (head_of_isSane hp)
  simp [isFolderPath, toList_dotted, hcs]

/-- A dot in front leaves a configuration file's path one. -/
theorem isConfigFile_dotted {p : String} (hp : isSane p = true) :
    isConfigFile (dotted p) = isConfigFile p := by
  obtain ⟨cs, hcs⟩ := List.head?_eq_some_iff.1 (head_of_isSane hp)
  have hname : fileName? (dotted p) = fileName? p := by
    rw [fileName?, fileName?, toList_dotted, hcs, splitOn_cons_slash, splitOn_cons_dot_slash,
      splitOn_cons_slash]
    simp
  rw [isConfigFile, isConfigFile, hname]

/-- A path below the top that is spelt without dots between its slashes. -/
def IsPlain (path : String) : Prop :=
  (∃ c cs, path.toList = '/' :: c :: cs) ∧ ['.'] ∉ path.toList.splitOn '/'

/-- A path with a dot in front does not begin with a path that is spelt without. -/
theorem not_startsWith_dotted {p front : String} (hp : isSane p = true) (hfront : IsPlain front) :
    startsWith (dotted p) front = false := by
  obtain ⟨cs, hcs⟩ := List.head?_eq_some_iff.1 (head_of_isSane hp)
  obtain ⟨⟨c, ds, hlist⟩, hdot⟩ := hfront
  rw [startsWith, startsFolded, Bool.eq_false_iff, ne_eq, List.isPrefixOf_iff_prefix,
    toList_dotted, hcs, hlist]
  intro hstart
  simp only [foldCase, List.map_cons, List.cons_prefix_cons] at hstart
  obtain ⟨-, hc, hrest⟩ := hstart
  have hc : c = '.' := (toLower_eq_iff (Or.inr rfl)).1 hc
  subst hc
  cases ds with
  | nil => exact hdot (by rw [hlist]; decide)
  | cons d ds =>
    rw [List.map_cons, List.cons_prefix_cons] at hrest
    have hd : d = '/' := (toLower_eq_iff (Or.inl rfl)).1 hrest.1
    subst hd
    rw [hlist, splitOn_cons_slash, splitOn_cons_dot_slash] at hdot
    simp at hdot

/-- A guard whose settings are spelt without dots. -/
structure PlainGuard (g : Guard) : Prop where
  dataPath : Access.IsPlain g.dataPath
  authFile : Access.IsPlain g.authFile
  rules : ∀ r ∈ g.rules, Access.IsPlain r.path

/-- A home is below the folder of all homes. -/
theorem startsWith_users_of_home {p : String} {t : Ticket} (h : startsWith p (home t) = true) :
    startsWith p "/users/" = true := by
  have hhome := List.isPrefixOf_iff_prefix.1 h
  refine List.isPrefixOf_iff_prefix.2 (List.IsPrefix.trans ?_ hhome)
  exact ⟨foldCase (t.username ++ "/").toList, by simp [foldCase, home]⟩

/-- No rule of a plain guard applies to a path with a dot in front. -/
theorem PlainGuard.decide_dotted {g : Guard} (hg : PlainGuard g) {p : String}
    (hp : isSane p = true) (t : Ticket) (operation : Operation) (otherwise : Bool) :
    g.decide t (dotted p) operation otherwise = otherwise := by
  have hnone : (g.rules.filter fun r => r.appliesTo t.role operation (dotted p)) = [] := by
    rw [List.filter_eq_nil_iff]
    intro r hr
    simp [AccessRule.appliesTo, not_startsWith_dotted hp (hg.rules r hr)]
  simp [Guard.decide, hnone]

/-- With a dot in front, all files but configuration files may be read by everybody,
whatever a plain guard says about them. -/
theorem PlainGuard.read_dotted {g : Guard} (hg : PlainGuard g) {p : String}
    (hp : isSane p = true) (t : Ticket) :
    g.read t (dotted p) = .ok () ↔
      t.isRoot = true ∨ isFolderPath p = true ∨ isConfigFile p = false := by
  have husers : startsWith (dotted p) "/users/" = false :=
    not_startsWith_dotted hp ⟨⟨'u', "sers/".toList, rfl⟩, by decide⟩
  have hauth : sameFolded (dotted p).toList g.authFile.toList = false := by
    rw [Bool.eq_false_iff]
    intro hsame
    have hfold : foldCase (dotted p).toList = foldCase g.authFile.toList := beq_iff_eq.1 hsame
    have hstart : startsWith (dotted p) g.authFile = true :=
      List.isPrefixOf_iff_prefix.2 (hfold ▸ List.prefix_refl _)
    simp [not_startsWith_dotted hp hg.authFile] at hstart
  rw [Guard.read, check_eq_ok_iff, isFolderPath_dotted hp]
  simp only [isSane_dotted hp, Guard.mayReadFolder, Guard.mayReadFile, husers, hauth,
    not_startsWith_dotted hp hg.dataPath, hg.decide_dotted hp, isConfigFile_dotted hp]
  cases isFolderPath p <;> cases isConfigFile p <;> simp

/-- With a dot in front, nothing may be changed but by the role `root`. -/
theorem PlainGuard.modify_dotted {g : Guard} (hg : PlainGuard g) {p : String}
    (hp : isSane p = true) (t : Ticket) : g.modify t (dotted p) = .ok () ↔ t.isRoot = true := by
  have husers : startsWith (dotted p) "/users/" = false :=
    not_startsWith_dotted hp ⟨⟨'u', "sers/".toList, rfl⟩, by decide⟩
  have hcommon : startsWith (dotted p) "/common/" = false :=
    not_startsWith_dotted hp ⟨⟨'c', "ommon/".toList, rfl⟩, by decide⟩
  have hhome : startsWith (dotted p) (home t) = false := by
    rw [Bool.eq_false_iff]
    intro hhome
    have h := startsWith_users_of_home hhome
    simp [husers] at h
  simp [Guard.modify, check_eq_ok_iff, isSane_dotted hp, Guard.mayModify, hhome, hcommon,
    hg.decide_dotted hp]

-- ---------------------------------------------------------------------------
-- Both together
-- ---------------------------------------------------------------------------

/-- The guard decides by the spelling of a path. Two spellings of one place are decided
alike by every guard and for every ticket exactly if they are the same text or configuration
files of the common folder. And every path has a spelling, with a dot in front, that a guard
with plain settings lets everybody read, be it in the home of somebody else, in the data
folder or the credentials file, unless it is a configuration file. -/
theorem decides_by_spelling {p q : String} (hp : isSane p = true) (hq : isSane q = true)
    (hsame : segments p = segments q) :
    (Alike p q ↔ p = q ∨ InCommonConfig p ∧ InCommonConfig q) ∧
      isSane (dotted p) = true ∧ segments (dotted p) = segments p ∧
      ∀ (g : Guard) (t : Ticket), PlainGuard g →
        (g.read t (dotted p) = .ok () ↔
          t.isRoot = true ∨ isFolderPath p = true ∨ isConfigFile p = false) ∧
        (g.modify t (dotted p) = .ok () ↔ t.isRoot = true) :=
  ⟨alike_iff hp hq hsame, isSane_dotted hp, segments_dotted hp,
    fun _ t hg => ⟨hg.read_dotted hp t, hg.modify_dotted hp t⟩⟩

/-- A guard as it comes is spelt without dots. -/
theorem isPlain_default : PlainGuard {} :=
  ⟨⟨⟨'d', "b/".toList, rfl⟩, by decide⟩, ⟨⟨'a', "uth.hl".toList, rfl⟩, by decide⟩, by simp⟩

/-- A note of another user may not be read, but with a dot in front it may. -/
theorem decides_by_spelling_notes :
    segments "/users/bob/notes.hl" = segments "/./users/bob/notes.hl" ∧
      ¬ Alike "/users/bob/notes.hl" "/./users/bob/notes.hl" ∧
      Guard.read {} ⟨"alice", "user"⟩ "/users/bob/notes.hl" ≠ .ok () ∧
      Guard.read {} ⟨"alice", "user"⟩ "/./users/bob/notes.hl" = .ok () := by
  have hsame : segments "/users/bob/notes.hl" = segments "/./users/bob/notes.hl" := by decide
  obtain ⟨halike, -, -, hdotted⟩ := decides_by_spelling (p := "/users/bob/notes.hl")
    (q := "/./users/bob/notes.hl") (by decide) (by decide) hsame
  refine ⟨hsame, ?_, by decide, ?_⟩
  · rw [halike]
    rintro (heq | hconfig)
    · exact absurd heq (by decide)
    · exact absurd hconfig.1.1 (by decide)
  · exact ((hdotted {} ⟨"alice", "user"⟩ isPlain_default).1).2 (Or.inr (Or.inr (by decide)))

end TreeScript.Access
