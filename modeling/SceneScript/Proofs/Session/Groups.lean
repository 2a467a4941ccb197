import SceneScript.Proofs.Grammar.Reads
import SceneScript.Proofs.Session.Quiet

/-! The order of a command line. A command line is made of groups: an option with its value, an
option that takes none, a file. The options are looked for from the front and the file by what
stands before each word, yet as long as nothing is given twice the groups may come in any order:
what is asked for, or the fault that is told, is the same, and it is what the groups say. -/

namespace SceneScript.Config

/-- The options that take a value. -/
inductive Setting where
  | event
  | frames
  | dt
  | width
  | height
deriving DecidableEq, Repr

def Setting.flag : Setting → String
  | .event => "--event"
  | .frames => "--frames"
  | .dt => "--dt"
  | .width => "--width"
  | .height => "--height"

/-- The options that take none. -/
inductive Switch where
  | quiet
  | help
deriving DecidableEq, Repr

def Switch.flag : Switch → String
  | .quiet => "--quiet"
  | .help => "--help"

/-- The words of a command line that belong together. -/
inductive Group where
  | setting (s : Setting) (value : String)
  | switch (s : Switch)
  /-- An option that means nothing. -/
  | unknown (flag : String)
  | file (name : String)
deriving DecidableEq, Repr

namespace Group

def words : Group → List String
  | .setting s value => [s.flag, value]
  | .switch s => [s.flag]
  | .unknown flag => [flag]
  | .file name => [name]

/-- Values and files do not look like options, and an option that means nothing is none of the
others. -/
def Proper : Group → Prop
  | .setting _ value => isOption value = false
  | .switch _ => True
  | .unknown flag => isOption flag = true ∧ (∀ s : Setting, flag ≠ s.flag) ∧
      ∀ s : Switch, flag ≠ s.flag
  | .file name => isOption name = false

/-- The value that the group gives to an option. -/
def value? (s : Setting) : Group → Option String
  | .setting s' value => if s' = s then some value else none
  | _ => none

def file? : Group → Option String
  | .file name => some name
  | _ => none

end Group

/-- The groups are proper, no option is given two values and there are not two files. -/
structure Tidy (gs : List Group) : Prop where
  proper : ∀ g ∈ gs, g.Proper
  settings : ∀ s, (gs.filterMap (Group.value? s)).length ≤ 1
  files : (gs.filterMap Group.file?).length ≤ 1

/-! What is found among the words of groups. -/

theorem Setting.flag_inj {s s' : Setting} (h : s.flag = s'.flag) : s = s' := by
  revert h
  cases s <;> cases s' <;> decide

theorem mem_valued {word : String} : word ∈ valued ↔ ∃ s : Setting, word = s.flag := by
  constructor
  · intro h
    simp only [valued, List.mem_cons, List.not_mem_nil, or_false] at h
    rcases h with rfl | rfl | rfl | rfl | rfl
    exacts [⟨.event, rfl⟩, ⟨.frames, rfl⟩, ⟨.dt, rfl⟩, ⟨.width, rfl⟩, ⟨.height, rfl⟩]
  · rintro ⟨s, rfl⟩
    cases s <;> decide

theorem Setting.isOption_flag (s : Setting) : isOption s.flag = true := by
  cases s <;> decide

theorem Switch.isOption_flag (s : Switch) : isOption s.flag = true := by
  cases s <;> decide

theorem Setting.flag_ne_switch (s : Setting) (s' : Switch) : s.flag ≠ s'.flag := by
  cases s <;> cases s' <;> decide

theorem ne_of_isOption {word flag : String} (hword : isOption word = false)
    (hflag : isOption flag = true) : word ≠ flag := by
  rintro rfl
  exact Bool.false_ne_true (hword.symm.trans hflag)

theorem not_valued {word : String} (h : ∀ s : Setting, word ≠ s.flag) :
    valued.contains word = false := by
  refine Bool.eq_false_iff.mpr fun hmem => ?_
  obtain ⟨s, hs⟩ := mem_valued.mp (List.contains_iff_mem.mp hmem)
  exact h s hs

theorem fileAfter?_option {before flag : String} (h : isOption flag = true) (args : List String) :
    fileAfter? before (flag :: args) = fileAfter? flag args := by
  rw [fileAfter?, h]
  rfl

/-- An option has the value that the first group with one gives it. -/
theorem option?_words (s : Setting) {gs : List Group} (h : ∀ g ∈ gs, g.Proper) :
    option? s.flag (gs.flatMap Group.words) = gs.findSome? (Group.value? s) := by
  induction gs with
  | nil => rfl
  | cons g gs ih =>
    obtain ⟨hg, hgs⟩ := List.forall_mem_cons.mp h
    have hskip : ∀ word, word ≠ s.flag →
        option? s.flag (word :: gs.flatMap Group.words) = gs.findSome? (Group.value? s) :=
      fun word hne => (option?_cons_of_ne hne _).trans (ih hgs)
    rw [List.flatMap_cons, List.findSome?_cons]
    cases g with
    | setting s' value =>
      show option? s.flag (s'.flag :: value :: gs.flatMap Group.words) = _
      by_cases hs : s' = s
      · subst hs
        simp [option?, Group.value?]
      · rw [option?_cons_of_ne fun heq => hs (Setting.flag_inj heq),
          hskip value (ne_of_isOption hg s.isOption_flag), Group.value?, if_neg hs]
    | switch s' => exact hskip s'.flag (s.flag_ne_switch s').symm
    | unknown flag => exact hskip flag (hg.2.1 s)
    | file name => exact hskip name (ne_of_isOption hg s.isOption_flag)

/-- The file is found behind any word that takes no value, a value among them. -/
theorem fileAfter?_words {before : String} (hbefore : valued.contains before = false)
    {gs : List Group} (h : ∀ g ∈ gs, g.Proper) :
    fileAfter? before (gs.flatMap Group.words) = gs.findSome? Group.file? := by
  induction gs generalizing before with
  | nil => rfl
  | cons g gs ih =>
    obtain ⟨hg, hgs⟩ := List.forall_mem_cons.mp h
    have hskip : ∀ flag, isOption flag = true → (∀ s : Setting, flag ≠ s.flag) →
        fileAfter? before (flag :: gs.flatMap Group.words) = gs.findSome? Group.file? :=
      fun flag hflag hne => (fileAfter?_option hflag _).trans (ih (not_valued hne) hgs)
    rw [List.flatMap_cons, List.findSome?_cons]
    cases g with
    | setting s value =>
      have hs : valued.contains s.flag = true :=
        List.contains_iff_mem.mpr (mem_valued.mpr ⟨s, rfl⟩)
      have hvalue := not_valued fun s' => ne_of_isOption hg s'.isOption_flag
      show fileAfter? before (s.flag :: value :: gs.flatMap Group.words) = _
      rw [fileAfter?_option s.isOption_flag, fileAfter?, hs]
      simpa [Group.file?] using ih hvalue hgs
    | switch s => exact hskip s.flag s.isOption_flag fun s' => (s'.flag_ne_switch s).symm
    | unknown flag => exact hskip flag hg.1 hg.2.1
    | file name =>
      have hname : isOption name = false := hg
      show fileAfter? before (name :: gs.flatMap Group.words) = _
      rw [fileAfter?, hname, hbefore]
      rfl

theorem flag_mem_words {s : Switch} {g : Group} (h : g.Proper) :
    s.flag ∈ g.words ↔ g = .switch s := by
  cases g with
  | setting s' value =>
    simpa [Group.words, (s'.flag_ne_switch s).symm] using (ne_of_isOption h s.isOption_flag).symm
  | switch s' => cases s <;> cases s' <;> decide
  | unknown flag => simpa [Group.words] using (h.2.2 s).symm
  | file name => simpa [Group.words] using (ne_of_isOption h s.isOption_flag).symm

theorem contains_words (s : Switch) {gs : List Group} (h : ∀ g ∈ gs, g.Proper) :
    (gs.flatMap Group.words).contains s.flag = decide (.switch s ∈ gs) := by
  rw [Bool.eq_iff_iff, List.contains_iff_mem, List.mem_flatMap, decide_eq_true_iff]
  constructor
  · rintro ⟨g, hg, hmem⟩
    rwa [← (flag_mem_words (h g hg)).mp hmem]
  · exact fun hmem => ⟨.switch s, hmem, List.mem_singleton.mpr rfl⟩

/-! Nothing is given twice, so where it is given does not matter. -/

/-- What at most one member of a list tells is found wherever that member stands. -/
theorem findSome?_eq_some_iff {α β : Type} {f : α → Option β} {as : List α} {b : β}
    (h : (as.filterMap f).length ≤ 1) : as.findSome? f = some b ↔ ∃ a ∈ as, f a = some b := by
  constructor
  · exact List.exists_of_findSome?_eq_some
  · intro hb
    have hmem := List.mem_filterMap.mpr hb
    rw [← List.head?_filterMap]
    match hfound : as.filterMap f with
    | [] => simp [hfound] at hmem
    | [c] => simpa [hfound, eq_comm] using hmem
    | _ :: _ :: _ => simp [hfound] at h

theorem Group.value?_eq_some {s : Setting} {g : Group} {value : String} :
    g.value? s = some value ↔ g = .setting s value := by
  cases g with
  | setting s' value' =>
    by_cases hs : s' = s
    · simp [Group.value?, hs]
    · simp [Group.value?, hs]
  | _ => simp [Group.value?]

theorem Group.file?_eq_some {g : Group} {name : String} : g.file? = some name ↔ g = .file name := by
  cases g <;> simp [Group.file?]

namespace Tidy

variable {gs gs' : List Group} (h : Tidy gs)
include h

theorem option?_eq_some {s : Setting} {value : String} :
    option? s.flag (gs.flatMap Group.words) = some value ↔ .setting s value ∈ gs := by
  rw [option?_words s h.proper, findSome?_eq_some_iff (h.settings s)]
  simp [Group.value?_eq_some]

theorem option?_eq_none {s : Setting} :
    option? s.flag (gs.flatMap Group.words) = none ↔ ∀ value, .setting s value ∉ gs := by
  simp [Option.eq_none_iff_forall_ne_some, h.option?_eq_some]

theorem fileAfter?_eq_some {name : String} :
    fileAfter? "" (gs.flatMap Group.words) = some name ↔ .file name ∈ gs := by
  rw [fileAfter?_words (by decide) h.proper, findSome?_eq_some_iff h.files]
  simp [Group.file?_eq_some]

theorem perm (hperm : gs'.Perm gs) : Tidy gs' where
  proper g hg := h.proper g (hperm.mem_iff.mp hg)
  settings s := (hperm.filterMap _).length_eq ▸ h.settings s
  files := (hperm.filterMap _).length_eq ▸ h.files

theorem ofArgs_perm (hperm : gs'.Perm gs) :
    ofArgs (gs'.flatMap Group.words) = ofArgs (gs.flatMap Group.words) := by
  have h' := h.perm hperm
  have hoption : ∀ name ∈ valued, option? name (gs'.flatMap Group.words) =
      option? name (gs.flatMap Group.words) := by
    intro name hname
    obtain ⟨s, rfl⟩ := mem_valued.mp hname
    exact Option.ext fun value => by
      rw [h'.option?_eq_some, h.option?_eq_some, hperm.mem_iff]
  have hfile : fileAfter? "" (gs'.flatMap Group.words) =
      fileAfter? "" (gs.flatMap Group.words) :=
    Option.ext fun name => by
      rw [h'.fileAfter?_eq_some, h.fileAfter?_eq_some, hperm.mem_iff]
  have hswitch : ∀ s : Switch, (gs'.flatMap Group.words).contains s.flag =
      (gs.flatMap Group.words).contains s.flag := by
    intro s
    rw [contains_words s h'.proper, contains_words s h.proper, decide_eq_decide]
    exact hperm.mem_iff
  rw [ofArgs_eq_map hoption hfile (hswitch .help),
    show (gs'.flatMap Group.words).contains "--quiet" = _ from hswitch .quiet]
  exact (ofArgs_eq_map (fun _ _ => rfl) rfl rfl).symm

end Tidy

/-! What is asked for. -/

theorem numeric_eq_ok {args : List String} {name : String} {usual x : Number} :
    numeric args name usual = .ok x ↔
      option? name args = none ∧ x = usual ∨
      ∃ raw, option? name args = some raw ∧ Text.allBlank raw = false ∧
        (Number.read raw).isFinite = true ∧ x = Number.read raw := by
  unfold numeric
  cases option? name args with
  | none =>
    constructor
    · rintro ⟨⟩
      exact .inl ⟨rfl, rfl⟩
    · rintro (⟨-, rfl⟩ | ⟨_, ⟨⟩, -⟩)
      rfl
  | some raw =>
    dsimp only
    split
    · rename_i hbad
      constructor
      · rintro ⟨⟩
      · rintro (⟨⟨⟩, -⟩ | ⟨_, ⟨⟩, hblank, hfinite, -⟩)
        rw [hblank, hfinite] at hbad
        cases hbad
    · rename_i hgood
      rw [Bool.or_eq_true, not_or, Bool.not_eq_true, Bool.not_eq_true, Bool.not_eq_false'] at hgood
      constructor
      · rintro ⟨⟩
        exact .inr ⟨raw, rfl, hgood.1, hgood.2, rfl⟩
      · rintro (⟨⟨⟩, -⟩ | ⟨_, ⟨⟩, -, -, rfl⟩)
        rfl

theorem ofArgs_eq_ok {args : List String} {config : Config} :
    ofArgs args = .ok config ↔
      numeric args "--frames" .one = .ok config.frames ∧
      (frameCount? config.frames).isSome = true ∧
      numeric args "--dt" (.ofRatio false 1 60) = .ok config.dt ∧
      numeric args "--width" (.ofNat 800) = .ok config.viewport.width ∧
      numeric args "--height" (.ofNat 600) = .ok config.viewport.height ∧
      config.file = fileAfter? "" args ∧ config.event = (option? "--event" args).getD "render" ∧
      config.quiet = args.contains "--quiet" ∧ config.help = args.contains "--help" := by
  unfold ofArgs
  constructor
  · intro h
    obtain ⟨frames, hframes, h⟩ := bind_eq_ok.mp h
    dsimp only at h
    by_cases hcount : (frameCount? frames).isNone = true
    · rw [if_pos hcount] at h
      cases h
    · rw [if_neg hcount] at h
      obtain ⟨dt, hdt, h⟩ := bind_eq_ok.mp h
      obtain ⟨width, hwidth, h⟩ := bind_eq_ok.mp h
      obtain ⟨height, hheight, h⟩ := bind_eq_ok.mp h
      cases h
      rw [Bool.not_eq_true, Option.isNone_eq_false_iff] at hcount
      exact ⟨hframes, hcount, hdt, hwidth, hheight, rfl, rfl, rfl, rfl⟩
  · rintro ⟨hframes, hcount, hdt, hwidth, hheight, hfile, hevent, hquiet, hhelp⟩
    refine bind_eq_ok.mpr ⟨config.frames, hframes, ?_⟩
    dsimp only
    rw [if_neg (by simpa [Option.isSome_iff_ne_none] using hcount)]
    refine bind_eq_ok.mpr ⟨_, hdt, bind_eq_ok.mpr ⟨_, hwidth, bind_eq_ok.mpr ⟨_, hheight, ?_⟩⟩⟩
    rw [← hfile, ← hevent, ← hquiet, ← hhelp]
    rfl

theorem isSome_frameCount? {x : Number} :
    (frameCount? x).isSome = true ↔ ∃ n : Nat, x.integer? = some (n : Int) := by
  unfold frameCount?
  cases x.integer? with
  | none => simp
  | some i =>
    dsimp only
    split
    · simpa using Int.eq_ofNat_of_zero_le ‹_›
    · simp only [Option.isSome_none, Bool.false_eq_true, Option.some.injEq, false_iff, not_exists]
      omega

/-- `x` is what `read` makes of the value that one of the groups gives to the option, or `usual`
when none gives it one. -/
def Says (gs : List Group) (s : Setting) {α : Type} (read : String → α) (usual x : α) : Prop :=
  (∃ value, .setting s value ∈ gs ∧ x = read value) ∨ (∀ value, .setting s value ∉ gs) ∧ x = usual

/-- What is asked for is what the groups say. -/
structure Answers (config : Config) (gs : List Group) : Prop where
  file : (∃ name, .file name ∈ gs ∧ config.file = some name) ∨
    (∀ name, .file name ∉ gs) ∧ config.file = none
  event : Says gs .event id "render" config.event
  frames : Says gs .frames Number.read .one config.frames
  dt : Says gs .dt Number.read (.ofRatio false 1 60) config.dt
  width : Says gs .width Number.read (.ofNat 800) config.viewport.width
  height : Says gs .height Number.read (.ofNat 600) config.viewport.height
  quiet : config.quiet = true ↔ .switch .quiet ∈ gs
  help : config.help = true ↔ .switch .help ∈ gs
  count : ∃ n : Nat, config.frames.integer? = some (n : Int)

/-- The values given for numbers are finite numbers, and that for the frames is a natural one. -/
structure Readable (gs : List Group) : Prop where
  numbers : ∀ s value, s ≠ .event → .setting s value ∈ gs →
    Text.allBlank value = false ∧ (Number.read value).isFinite = true
  frames : ∀ value, .setting .frames value ∈ gs →
    ∃ n : Nat, (Number.read value).integer? = some (n : Int)

namespace Tidy

variable {gs gs' : List Group} (h : Tidy gs)
include h

theorem numeric_eq_ok {s : Setting} {usual x : Number} :
    numeric (gs.flatMap Group.words) s.flag usual = .ok x ↔
      Says gs s Number.read usual x ∧ ∀ value, .setting s value ∈ gs →
        Text.allBlank value = false ∧ (Number.read value).isFinite = true := by
  rw [Config.numeric_eq_ok, h.option?_eq_none]
  simp only [h.option?_eq_some]
  constructor
  · rintro (⟨hnone, rfl⟩ | ⟨raw, hraw, hblank, hfinite, rfl⟩)
    · exact ⟨.inr ⟨hnone, rfl⟩, fun value hvalue => absurd hvalue (hnone value)⟩
    · refine ⟨.inl ⟨raw, hraw, rfl⟩, fun value hvalue => ?_⟩
      have heq := (h.option?_eq_some.mpr hraw).symm.trans (h.option?_eq_some.mpr hvalue)
      cases heq
      exact ⟨hblank, hfinite⟩
  · rintro ⟨⟨value, hvalue, rfl⟩ | hnone, hgood⟩
    · exact .inr ⟨value, hvalue, (hgood value hvalue).1, (hgood value hvalue).2, rfl⟩
    · exact .inl hnone

theorem answers {config : Config} (hconfig : ofArgs (gs.flatMap Group.words) = .ok config) :
    config.Answers gs := by
  obtain ⟨hframes, hcount, hdt, hwidth, hheight, hfile, hevent, hquiet, hhelp⟩ :=
    ofArgs_eq_ok.mp hconfig
  refine ⟨?_, ?_, (h.numeric_eq_ok (s := .frames).mp hframes).1,
    (h.numeric_eq_ok (s := .dt).mp hdt).1, (h.numeric_eq_ok (s := .width).mp hwidth).1,
    (h.numeric_eq_ok (s := .height).mp hheight).1, ?_, ?_, isSome_frameCount?.mp hcount⟩
  · cases hfound : config.file with
    | some name => exact .inl ⟨name, h.fileAfter?_eq_some.mp (hfile.symm.trans hfound), rfl⟩
    | none =>
      refine .inr ⟨fun name hname => ?_, rfl⟩
      cases hfound.symm.trans (hfile.trans (h.fileAfter?_eq_some.mpr hname))
  · cases hfound : option? "--event" (gs.flatMap Group.words) with
    | some value =>
      rw [hfound] at hevent
      exact .inl ⟨value, h.option?_eq_some (s := .event).mp hfound, hevent⟩
    | none =>
      rw [hfound] at hevent
      exact .inr ⟨h.option?_eq_none (s := .event).mp hfound, hevent⟩
  · rw [hquiet, show List.contains _ "--quiet" = _ from contains_words .quiet h.proper,
      decide_eq_true_iff]
  · rw [hhelp, show List.contains _ "--help" = _ from contains_words .help h.proper,
      decide_eq_true_iff]

theorem exists_says (s : Setting) (usual : Number) : ∃ x, Says gs s Number.read usual x := by
  cases hfound : option? s.flag (gs.flatMap Group.words) with
  | some value => exact ⟨_, .inl ⟨value, h.option?_eq_some.mp hfound, rfl⟩⟩
  | none => exact ⟨_, .inr ⟨h.option?_eq_none.mp hfound, rfl⟩⟩

theorem exists_ofArgs_iff :
    (∃ config, ofArgs (gs.flatMap Group.words) = .ok config) ↔ Readable gs := by
  constructor
  · rintro ⟨config, hconfig⟩
    obtain ⟨hframes, hcount, hdt, hwidth, hheight, -⟩ := ofArgs_eq_ok.mp hconfig
    obtain ⟨hclause, hframes⟩ := h.numeric_eq_ok (s := .frames).mp hframes
    refine ⟨fun s value hs => ?_, fun value hvalue => ?_⟩
    · cases s with
      | event => exact absurd rfl hs
      | frames => exact hframes value
      | dt => exact (h.numeric_eq_ok (s := .dt).mp hdt).2 value
      | width => exact (h.numeric_eq_ok (s := .width).mp hwidth).2 value
      | height => exact (h.numeric_eq_ok (s := .height).mp hheight).2 value
    · obtain ⟨value', hvalue', heq⟩ | ⟨hnone, -⟩ := hclause
      · cases (h.option?_eq_some.mpr hvalue).symm.trans (h.option?_eq_some.mpr hvalue')
        exact heq ▸ isSome_frameCount?.mp hcount
      · exact absurd hvalue (hnone value)
  · intro hread
    have hnumber : ∀ s usual, s ≠ Setting.event →
        ∃ x, numeric (gs.flatMap Group.words) s.flag usual = .ok x := by
      intro s usual hs
      obtain ⟨x, hx⟩ := h.exists_says s usual
      exact ⟨x, h.numeric_eq_ok.mpr ⟨hx, fun value => hread.numbers s value hs⟩⟩
    obtain ⟨frames, hframes⟩ := hnumber .frames .one (by decide)
    obtain ⟨dt, hdt⟩ := hnumber .dt (.ofRatio false 1 60) (by decide)
    obtain ⟨width, hwidth⟩ := hnumber .width (.ofNat 800) (by decide)
    obtain ⟨height, hheight⟩ := hnumber .height (.ofNat 600) (by decide)
    have hcount : (frameCount? frames).isSome = true := by
      obtain ⟨value, hvalue, rfl⟩ | ⟨-, rfl⟩ := (h.numeric_eq_ok.mp hframes).1
      · exact isSome_frameCount?.mpr (hread.frames value hvalue)
      · decide +kernel
    exact ⟨⟨_, _, frames, dt, ⟨width, height⟩, _, _⟩,
      ofArgs_eq_ok.mpr ⟨hframes, hcount, hdt, hwidth, hheight, rfl, rfl, rfl, rfl⟩⟩

end Tidy

/-- The groups of a command line may come in any order. The same is asked for, or the same fault is
told; the numbers among the values decide which, and what is asked for is what the groups say. -/
theorem ofArgs_groups {gs gs' : List Group} (h : Tidy gs) (hperm : gs'.Perm gs) :
    ofArgs (gs'.flatMap Group.words) = ofArgs (gs.flatMap Group.words) ∧
      ((∃ config, ofArgs (gs'.flatMap Group.words) = .ok config) ↔ Readable gs) ∧
      ∀ config, ofArgs (gs'.flatMap Group.words) = .ok config → config.Answers gs := by
  rw [h.ofArgs_perm hperm]
  exact ⟨rfl, h.exists_ofArgs_iff, fun _ => h.answers⟩

/-- A file between an option with its value and one that means nothing, and a value that could be a
file. -/
theorem ofArgs_groups_reversed :
    let gs : List Group := [.setting .frames "-0", .file "game.cue", .unknown "--fast",
      .setting .event "tick", .switch .quiet, .setting .width " 0x140 ", .switch .quiet]
    let config : Config := ⟨some "game.cue", "tick", .ofMagnitude true 0, .ofRatio false 1 60,
      ⟨.ofNat 320, .ofNat 600⟩, true, false⟩
    gs.reverse.flatMap Group.words = ["--quiet", "--width", " 0x140 ", "--quiet", "--event", "tick",
      "--fast", "game.cue", "--frames", "-0"] ∧
      Tidy gs ∧ gs.reverse.Perm gs ∧
      ofArgs (gs.reverse.flatMap Group.words) = .ok config ∧
      ofArgs (gs.reverse.flatMap Group.words) = ofArgs (gs.flatMap Group.words) ∧
      config.Answers gs := by
  intro gs config
  have htidy : Tidy gs := by
    have hfast : (Group.unknown "--fast").Proper :=
      ⟨by decide, fun s => by cases s <;> decide, fun s => by cases s <;> decide⟩
    refine ⟨?_, fun s => by cases s <;> decide, by decide⟩
    simp only [gs, List.forall_mem_cons, List.not_mem_nil, false_imp_iff, implies_true, and_true]
    exact ⟨rfl, rfl, hfast, rfl, trivial, rfl, trivial⟩
  have hconfig : ofArgs (gs.reverse.flatMap Group.words) = .ok config := by decide +kernel
  have hperm := List.reverse_perm gs
  obtain ⟨heq, -, hanswers⟩ := ofArgs_groups htidy hperm
  exact ⟨rfl, htidy, hperm, hconfig, heq, hanswers config hconfig⟩

end SceneScript.Config
