import OpenADK.Pkgmaker.Leftovers
import OpenADK.Pkgmaker.Traces

/-!
# The files of a package in two runs

The files that are written for a package are the same in two runs, whatever the other packages are
and whatever the order, if its Makefile settles what they are made of.
-/

namespace OpenADK.Pkgmaker
open CString FileOps

/-- The files that are written for the package in a directory. -/
def File.IsOf (dname : Bytes) : File → Prop
  | .config pkg => pkg = dname
  | .configOf pkg _ => pkg = dname
  | _ => False

/-- What a package adds to `Config.in.dev`. -/
def Package.devBlock (sectionmap : StrMap) (p : Package) : Bytes :=
  (appended gccDev (p.ops sectionmap).2).flatten

/-- The block of the package is in `Config.in.dev` after a run. -/
def Tree.HasBlock (t : Tree) (p : Package) : Prop :=
  ∃ before after, (t.pkgmaker clean).2 gccDev =
    some (before ++ p.devBlock t.sectionmap ++ after)

/-- Two runs make the same files for a package, and add the same to `Config.in.dev`. -/
structure SameFiles (t₁ t₂ : Tree) (p₁ p₂ : Package) : Prop where
  files : ∀ f : File, f.IsOf p₁.dir.name → f ≠ gccDev →
    (t₁.pkgmaker clean).2 f = (t₂.pkgmaker clean).2 f
  block : p₁.devBlock t₁.sectionmap = p₂.devBlock t₂.sectionmap
  hasBlock : t₁.HasBlock p₁ ∧ t₂.HasBlock p₂

def Tree.visited (t : Tree) : List Package := visits t.visible (fun _ => none) false

/-- `Config.in.dev` is not written for a package of gcc with this name. -/
def Tree.KeepsBlocks (t : Tree) : Prop :=
  ∀ p ∈ t.visited, p.dir.name = str "gcc" → str "dev" ∉ p.tokens

variable {sectionmap pkgmap : StrMap} {dname dname' : Bytes} {v v' : Vars} {p p' : Package}
  {f : File}

/-! ### The operations of a package -/

theorem devOps_congr (h : v.SameFor v') : devOps v = devOps v' := by
  unfold devOps
  rw [← h.eq .opts (by decide)]
  split
  case h_1 => rfl
  case h_2 string hdev =>
    obtain ⟨opts, hopts, -⟩ := Option.bind_eq_some_iff.mp hdev
    have hlibname : v .libname = v' .libname := h .libname (by rw [Vars.consults, hopts]; rfl)
    rw [hlibname, h.eq .name (by decide), h.eq .archDepends (by decide)]

theorem Vars.SameFor.forToken (h : v.SameFor v') (pkgmap : StrMap) (token : Bytes) :
    (v.forToken pkgmap token).SameFor (v'.forToken pkgmap token) := by
  unfold Vars.forToken
  rw [← h.eq .descr (by decide)]
  exact (h.updateSection _ _).update (by decide) _

/-- Up to the temporary files of the sections, the same is written. -/
theorem about_listOps_congr {ts : List Bytes} (h : v.SameFor v')
    (hf : ∀ hash, f ≠ .sectionlst hash)
    (hdone : (listOps sectionmap pkgmap dname v ts).1 = .done)
    (hdone' : (listOps sectionmap pkgmap dname v' ts).1 = .done) :
    about f (listOps sectionmap pkgmap dname v ts).2 =
      about f (listOps sectionmap pkgmap dname v' ts).2 := by
  induction ts generalizing v v' with
  | nil => rfl
  | cons token ts ih =>
    obtain ⟨hvalue, dev, -, hdev, hrest, heq⟩ := of_listOps_cons hdone
    obtain ⟨hvalue', dev', -, hdev', hrest', heq'⟩ := of_listOps_cons hdone'
    have hsame := h.forToken pkgmap token
    have hdevs : dev = dev' := by
      rw [devOps_congr hsame, hdev'] at hdev
      exact (Option.some.inj hdev).symm
    have htail := ih hsame.clear hrest hrest'
    have hlist (hvalue c : Bytes) (ops : List (Op File UInt8)) :
        about f (.append (.sectionlst (hashStr hvalue)) c :: ops) = about f ops :=
      about_cons_of_ne (Op.append (File.sectionlst (hashStr hvalue)) c) (hf _).symm ops
    rw [heq, heq', about_append, about_append, about_append, about_append, htail, hdevs,
      hlist, hlist, configLines_congr hsame]

/-- The states that the packages before leave differ at most in what the Makefile settles. -/
def Package.SettledWith (p p' : Package) : Prop :=
  p.Settles fun x => decide (p.vars x = p'.vars x)

instance (p p' : Package) : Decidable (p.SettledWith p') :=
  inferInstanceAs (Decidable (p.Settles _))

/-- What is written depends on the readings only as far as they are the same. -/
def SameText (r r' : Reading) : Prop :=
  r.nobinpkgs = r'.nobinpkgs ∧ r.pkgmap = r'.pkgmap ∧
    (r.nobinpkgs = true ∨ r.vars.SameFor r'.vars)

theorem sameText_of_settled (hdir : p.dir = p'.dir) (hmanual : p.dir.manual = false)
    (hsettled : p.SettledWith p') : SameText p.reading p'.reading := by
  obtain ⟨dir, vars, nobinpkgs⟩ := p
  obtain ⟨dir', vars', nobinpkgs'⟩ := p'
  obtain rfl : dir = dir' := hdir
  have hnot : ¬dir.manual = true := fun h => Bool.false_ne_true (hmanual.symm.trans h)
  obtain ⟨after, hafter, hsettled⟩ := hsettled.resolve_left hnot
  have hsame : SameOn after (readMakefile vars dir) (readMakefile vars' dir) :=
    SameOn.foldl ⟨rfl, rfl, fun x hx => of_decide_eq_true hx⟩ hafter
  have hreading (vars : Vars) (nobinpkgs : Bool) : Package.reading ⟨dir, vars, nobinpkgs⟩ =
      { readMakefile vars dir with vars := (readMakefile vars dir).vars.useLibname } :=
    if_neg hnot
  rw [hreading, hreading]
  refine ⟨hsame.nobinpkgs, hsame.pkgmap, hsettled.imp_right fun hconsults => ?_⟩
  exact Vars.SameFor.useLibname fun x hx => hsame.vars x (hconsults x hx)

theorem compileLines_congr {r r' : Reading} (h : SameText r r') :
    compileLines dname r = compileLines dname r' := by
  obtain ⟨hnobin, -, htext⟩ := h
  unfold compileLines
  rw [← hnobin]
  rcases htext with hnobin | hvars
  · rw [hnobin]
    rfl
  · rw [hvars.eq .subpkgs (by decide), hvars.eq .name (by decide)]

theorem tokens_congr (hdir : p.dir = p'.dir) (h : SameText p.reading p'.reading) :
    p.tokens = p'.tokens := by
  obtain ⟨hnobin, -, htext⟩ := h
  unfold Package.tokens
  rw [← hdir, ← hnobin]
  rcases htext with hnobin | hvars
  · rw [if_pos (.inr hnobin), if_pos (.inr hnobin)]
  · rw [Package.packages, Package.packages, hvars.eq .subpkgs (by decide),
      hvars.eq .name (by decide)]

/-- The package writes the same in both states. -/
theorem about_ops_congr (hdir : p.dir = p'.dir) (hsettled : p.SettledWith p')
    (hdone : (p.ops sectionmap).1 = .done) (hdone' : (p'.ops sectionmap).1 = .done)
    (hf : ∀ hash, f ≠ .sectionlst hash) :
    about f (p.ops sectionmap).2 = about f (p'.ops sectionmap).2 := by
  cases hmanual : p.dir.manual with
  | true =>
    -- only the temporary file of the section is written
    have hnil {q : Package} (hq : (q.ops sectionmap).1 = .done) (hmanual : q.dir.manual = true) :
        about f (q.ops sectionmap).2 = [] := by
      obtain ⟨hvalue, -, hops⟩ := of_ops_manual hq hmanual
      rw [hops]
      exact about_eq_nil fun op hop => by
        obtain rfl := List.mem_singleton.mp hop
        exact (hf _).symm
    rw [hnil hdone hmanual, hnil hdone' (hdir ▸ hmanual)]
  | false =>
    have htext := sameText_of_settled hdir hmanual hsettled
    obtain ⟨ls, hls, hlist, hops⟩ := of_ops hdone hmanual
    obtain ⟨ls', hls', hlist', hops'⟩ := of_ops hdone' (hdir ▸ hmanual)
    rw [← hdir, ← compileLines_congr htext, hls] at hls'
    obtain rfl := Option.some.inj hls'
    rw [← hdir, ← tokens_congr hdir htext, ← htext.2.1] at hlist' hops'
    rw [hops, hops', about_append, about_append]
    rcases htext.2.2 with hnobin | hvars
    · have hnil : p.tokens = [] := if_pos (.inr hnobin)
      rw [hnil]
      rfl
    · rw [about_listOps_congr hvars hf hlist hlist']

/-! ### The operations of a run -/

theorem dir_of_visits {dirs : List Dir} {vars : Vars} {nobinpkgs : Bool}
    (hp : p ∈ visits dirs vars nobinpkgs) : p.dir ∈ dirs := by
  induction dirs generalizing vars nobinpkgs with
  | nil => cases hp
  | cons dir dirs ih =>
    rcases List.mem_cons.mp hp with rfl | hp
    · exact List.mem_cons_self
    · exact List.mem_cons_of_mem _ (ih hp)

/-- Without a package gcc nothing replaces the file of the blocks. -/
theorem Tree.keepsBlocks_of_not_mem {t : Tree} (h : str "gcc" ∉ t.visible.map Dir.name) :
    t.KeepsBlocks := fun _ hp hname =>
  absurd (hname ▸ List.mem_map_of_mem (dir_of_visits hp)) h

theorem Writes.isOf {ts : List Bytes} {op : Op File UInt8} (h : Writes dname ts op)
    (hf : op.file.IsOf dname') (hdev : op.file ≠ gccDev) : dname = dname' := by
  cases h with
  | list hash u => cases hf
  | source c => cases hf
  | config c => exact hf
  | package token c _ => exact hf
  | dev c => exact absurd rfl hdev

/-- The files of a package are written when its turn comes, and at no other time. -/
theorem about_scanOps {dirs : List Dir} {vars : Vars} {nobinpkgs : Bool}
    (hnodup : (dirs.map Dir.name).Nodup)
    (hdone : (scanOps sectionmap dirs vars nobinpkgs).1 = .done)
    (hp : p ∈ visits dirs vars nobinpkgs) (hf : f.IsOf p.dir.name) (hdev : f ≠ gccDev) :
    about f (scanOps sectionmap dirs vars nobinpkgs).2 = about f (p.ops sectionmap).2 := by
  induction dirs generalizing vars nobinpkgs with
  | nil => cases hp
  | cons dir dirs ih =>
    obtain ⟨hfirst, hnodup⟩ := List.nodup_cons.mp hnodup
    rw [scanOps] at hdone ⊢
    dsimp only at hdone ⊢
    split at hdone
    case isFalse hne => exact absurd hdone hne
    case isTrue hdir =>
      rw [if_pos hdir, about_append]
      rcases List.mem_cons.mp hp with rfl | hp
      · have hrest (vars : Vars) (nobinpkgs : Bool) :
            about f (scanOps sectionmap dirs vars nobinpkgs).2 = [] :=
          about_eq_nil fun op hop heq => by
            obtain ⟨q, hq, hwrites⟩ := writes_scanOps _ _ _ _ op hop
            have hname := hwrites.isOf (heq ▸ hf) (heq ▸ hdev)
            exact hfirst (hname ▸ List.mem_map_of_mem (dir_of_visits hq))
        rw [hrest, List.append_nil]
      · have hnil : about f (Package.ops sectionmap ⟨dir, vars, nobinpkgs⟩).2 = [] :=
          about_eq_nil fun op hop heq => by
            have hname := (writes_ops _ _ op hop).isOf (heq ▸ hf) (heq ▸ hdev)
            exact hfirst (hname ▸ List.mem_map_of_mem (dir_of_visits hp))
        rw [hnil, List.nil_append]
        exact ih hnodup hdone hp

theorem appended_scanOps {dirs : List Dir} {vars : Vars} {nobinpkgs : Bool} (f : File)
    (hdone : (scanOps sectionmap dirs vars nobinpkgs).1 = .done) :
    appended f (scanOps sectionmap dirs vars nobinpkgs).2 =
      (visits dirs vars nobinpkgs).flatMap fun p => appended f (p.ops sectionmap).2 := by
  induction dirs generalizing vars nobinpkgs with
  | nil => rfl
  | cons dir dirs ih =>
    rw [scanOps] at hdone ⊢
    dsimp only at hdone ⊢
    split at hdone
    case isFalse hne => exact absurd hdone hne
    case isTrue hdir =>
      rw [if_pos hdir, appended_append, ih hdone]
      rfl

theorem File.IsOf.ne (h : f.IsOf dname) (name : Bytes) (hash : ℤ) :
    f ≠ .auto name ∧ f ≠ .sectionlst hash ∧ f ≠ .sorted hash := by
  refine ⟨?_, ?_, ?_⟩ <;> rintro rfl <;> exact h

namespace Tree
variable {t : Tree}

/-- What a run leaves in the files of a package. -/
theorem pkgmaker_isOf (hdone : (t.pkgmaker clean).1 = .done) (hp : p ∈ t.visited)
    (hf : f.IsOf p.dir.name) (hdev : f ≠ gccDev) :
    (t.pkgmaker clean).2 f = step (run clean (about f (p.ops t.sectionmap).2)) gccMenu f := by
  have hstart : about f startOps = [] := about_eq_nil fun op hop heq => by
    rcases List.mem_cons.mp hop with rfl | hop
    · exact (hf.ne (str "global") 0).1 heq.symm
    · obtain rfl := List.mem_singleton.mp hop
      exact hdev heq.symm
  have hnodup : (t.visible.map Dir.name).Nodup := t.nodup.sublist (List.filter_sublist.map _)
  have habout : about f (startOps ++ t.scanned.2) = about f (p.ops t.sectionmap).2 := by
    rw [about_append, hstart, List.nil_append]
    exact about_scanOps hnodup (pkgmaker_done hdone).1 hp hf hdev
  rw [pkgmaker_of_ne hdone hf.ne]
  apply step_congr
  rw [afterScan, ← run_about, habout]
  apply run_congr
  cases f <;> rfl

/-- The file is the header, and the blocks of the packages in their order. -/
theorem pkgmaker_gccDev (hdone : (t.pkgmaker clean).1 = .done) (hkeeps : t.KeepsBlocks) :
    (t.pkgmaker clean).2 gccDev =
      some (devHeader.flatten ++ t.visited.flatMap (Package.devBlock t.sectionmap)) := by
  have hwrite (c : Bytes) : .write gccDev c ∉ t.scanned.2 := fun hop => by
    obtain ⟨p, hp, hwrites⟩ := writes_scanOps _ _ _ _ _ hop
    generalize hname : p.dir.name = dname at hwrites
    cases hwrites with
    | package token c htoken => exact hkeeps p hp hname htoken
  have hmenu : gccMenu.file ≠ gccDev := by decide
  have hstart : run (removeAuto clean) startOps gccDev = some devHeader.flatten := rfl
  have happended : (appended gccDev t.scanned.2).flatten =
      t.visited.flatMap (Package.devBlock t.sectionmap) := by
    rw [scanned, appended_scanOps _ (pkgmaker_done hdone).1, ← List.flatMap_id, List.flatMap_assoc]
    simp only [List.flatMap_id]
    rfl
  rw [pkgmaker_of_ne hdone fun _ _ => ⟨File.noConfusion, File.noConfusion, File.noConfusion⟩,
    step_of_ne _ hmenu, afterScan, run_append, run_of_appends hwrite, hstart, ← happended]
  split
  case isTrue hnil => rw [hnil, List.flatten_nil, List.append_nil]
  case isFalse => rfl

theorem hasBlock (hdone : (t.pkgmaker clean).1 = .done) (hkeeps : t.KeepsBlocks)
    (hp : p ∈ t.visited) : t.HasBlock p := by
  obtain ⟨before, after, heq⟩ := List.append_of_mem hp
  refine ⟨devHeader.flatten ++ before.flatMap (Package.devBlock t.sectionmap),
    after.flatMap (Package.devBlock t.sectionmap), ?_⟩
  rw [pkgmaker_gccDev hdone hkeeps, heq, List.flatMap_append, List.flatMap_cons]
  simp only [List.append_assoc]

end Tree

/-- A package whose Makefile settles the variables on which the states before it differ. -/
theorem sameFiles_of_settled {t₁ t₂ : Tree} {p₁ p₂ : Package}
    (hlist : t₁.sectionList = t₂.sectionList) (h₁ : (t₁.pkgmaker clean).1 = .done)
    (h₂ : (t₂.pkgmaker clean).1 = .done) (hp₁ : p₁ ∈ t₁.visited) (hp₂ : p₂ ∈ t₂.visited)
    (hdir : p₁.dir = p₂.dir) (hkeeps₁ : t₁.KeepsBlocks) (hkeeps₂ : t₂.KeepsBlocks)
    (hsettled : p₁.SettledWith p₂) : SameFiles t₁ t₂ p₁ p₂ := by
  have hmap : t₁.sectionmap = t₂.sectionmap := congrArg readSections hlist
  have hops₁ := (ops_of_scanOps (Tree.pkgmaker_done h₁).1 hp₁).1
  have hops₂ := (ops_of_scanOps (Tree.pkgmaker_done h₂).1 hp₂).1
  rw [← hmap] at hops₂
  have habout {f : File} (hf : ∀ hash, f ≠ .sectionlst hash) :
      about f (p₁.ops t₁.sectionmap).2 = about f (p₂.ops t₁.sectionmap).2 :=
    about_ops_congr hdir hsettled hops₁ hops₂ hf
  refine ⟨fun f hf hdev => ?_, ?_, Tree.hasBlock h₁ hkeeps₁ hp₁, Tree.hasBlock h₂ hkeeps₂ hp₂⟩
  · rw [Tree.pkgmaker_isOf h₁ hp₁ hf hdev, Tree.pkgmaker_isOf h₂ hp₂ (hdir ▸ hf) hdev, ← hmap,
      habout fun hash => (hf.ne [] hash).2.1]
  · rw [← hmap, Package.devBlock, Package.devBlock, ← appended_about,
      habout fun hash => File.noConfusion, appended_about]

/-! ### A package after another one -/

def sectionsText : Bytes := str "text\tText\n"

def plainDir : Dir := ⟨str "b", str "PKG_NAME:=b\nPKG_SECTION:=text\n", false⟩

def alone : Tree where
  sectionList := sectionsText
  dirs := [plainDir]
  nodup := List.nodup_singleton _

/-- The package comes after one that needs `libz`. -/
def following (makefile : Bytes) : Tree where
  sectionList := sectionsText
  dirs := [⟨str "a", makefile, false⟩, plainDir]
  nodup := by
    change [str "a", str "b"].Nodup
    decide

def resetting : Bytes := str "PKG_NAME:=a\nPKG_SECTION:=text\nPKG_DEPENDS:=libz\n"

/-- It has no packages, so that nothing is reset after it. -/
def leaving : Bytes :=
  str "PKG_NAME:=a\nPKG_SECTION:=text\nPKG_DEPENDS:=libz\nPKG_SUBPKGS:=\n"

/-- The package as its turn comes after the other one. -/
def afterOther (makefile : Bytes) : Package :=
  let p : Package := ⟨⟨str "a", makefile, false⟩, fun _ => none, false⟩
  ⟨plainDir, p.varsAfter, p.reading.nobinpkgs⟩

def atStart : Package := ⟨plainDir, fun _ => none, false⟩

theorem sameFiles_resetting :
    SameFiles (following resetting) alone (afterOther resetting) atStart :=
  @sameFiles_of_settled (following resetting) alone (afterOther resetting) atStart rfl
    (by decide +kernel) (by decide +kernel)
    (List.mem_cons_of_mem _ (List.mem_singleton_self _)) (List.mem_singleton_self _) rfl
    (Tree.keepsBlocks_of_not_mem (by decide +kernel))
    (Tree.keepsBlocks_of_not_mem (by decide +kernel)) (by decide +kernel)

/-- What was set for the one package is printed for the other. -/
theorem not_sameFiles_leaving :
    ((following leaving).pkgmaker clean).1 = .done ∧ (alone.pkgmaker clean).1 = .done ∧
      afterOther leaving ∈ (following leaving).visited ∧ atStart ∈ alone.visited ∧
        ¬SameFiles (following leaving) alone (afterOther leaving) atStart := by
  refine ⟨by decide +kernel, by decide +kernel, List.mem_cons_of_mem _ (List.mem_singleton_self _),
    List.mem_singleton_self _, fun h => ?_⟩
  exact absurd (h.files (.configOf (str "b") (str "b")) rfl (by decide)) (by decide +kernel)

end OpenADK.Pkgmaker
