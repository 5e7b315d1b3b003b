import CompatChanges.Command.Arguments

/-!
# What a command line says

A command line is read argument by argument. It asks for a run exactly if it spells settings one after
the other and each of them can be met. The inputs of the run are then those of the settings in their
order, and other settings between them do not matter.
-/

namespace CompatChanges.Command

open Text

inductive Setting where
  | value (option : ValueOption) (text : String)
  | allowDuplicateChanges
  deriving DecidableEq

def ValueOption.name : ValueOption → String
  | .jar => "jar"
  | .xml => "xml"
  | .deviceConfig => "device-config"
  | .mergedConfig => "merged-config"
  | .indent => "indent"

def ValueOption.flag (option : ValueOption) : String := "--" ++ option.name

def allowFlag : String := "--allow-duplicate-changes"

/-- The arguments spell the settings, in order. -/
inductive Spells : (arguments : List String) → (settings : List Setting) → Prop
  | nil : Spells [] []
  | attached {arguments : List String} {settings : List Setting} (option : ValueOption) (text : String)
      (hrest : Spells arguments settings) :
      Spells ((option.flag ++ "=" ++ text) :: arguments) (.value option text :: settings)
  | separate {arguments : List String} {settings : List Setting} (option : ValueOption) {text : String}
      (hvalue : canBeValue text = true) (hrest : Spells arguments settings) :
      Spells (option.flag :: text :: arguments) (.value option text :: settings)
  | allow {arguments : List String} {settings : List Setting} (hrest : Spells arguments settings) :
      Spells (allowFlag :: arguments) (.allowDuplicateChanges :: settings)

/-- The request with one setting more, if it can be met. -/
def Request.meet? (request : Request) : Setting → Option Request
  | .value option text => (request.set option option.flag text).toOption
  | .allowDuplicateChanges =>
    if request.allowDuplicateChanges then none else some { request with allowDuplicateChanges := true }

def Request.meetAll? (request : Request) (settings : List Setting) : Option Request :=
  settings.foldlM meet? request

/-! ### Arguments -/

/-- An argument is only named in errors. -/
theorem toOption_set (request : Request) (option : ValueOption) (argument other text : String) :
    (request.set option argument text).toOption = (request.set option other text).toOption := by
  unfold Request.set
  cases text.isEmpty with
  | true => rfl
  | false =>
    cases option with
    | jar | xml => rfl
    | deviceConfig => cases request.deviceConfig <;> rfl
    | mergedConfig => cases request.mergedConfig <;> rfl
    | indent =>
      unfold readIndent
      cases readUnsigned (maxOfBits 64) text.toList <;> cases request.indent <;> rfl

theorem ValueOption.ofName?_eq_some_iff {name : String} {option : ValueOption} :
    ofName? name = some option ↔ name = option.name := by
  constructor
  · intro hname
    unfold ofName? at hname
    split at hname <;> cases hname <;> rfl
  · rintro rfl
    cases option <;> rfl

theorem Switch.ofName?_eq_allow {name : String} (hname : ofName? name = some .allowDuplicateChanges) :
    name = "allow-duplicate-changes" := by
  unfold ofName? at hname
  split at hname <;> cases hname
  rfl

theorem Argument.eq_of_read_long {argument name : String} {attached : Option String}
    (hread : read argument = .long name attached) :
    argument = "--" ++ name ++ attached.elim "" ("=" ++ ·) := by
  apply String.toList_inj.mp
  unfold read at hread
  split at hread
  · cases hread
  · next rest _ htext =>
    rw [htext]
    split at hread
    · cases hread
      simp
    · next mark value hsome =>
      have hsplit := List.takeWhile_append_dropWhile (p := (· ≠ '=')) (l := rest)
      have hmark := List.head?_dropWhile_not (· ≠ '=') rest
      rw [hsome] at hsplit hmark
      obtain rfl : mark = '=' := by simpa using hmark
      cases hread
      simpa using hsplit.symm
  · cases hread
  · cases hread

theorem Argument.eq_of_read_separator {argument : String} (hread : read argument = .separator) :
    argument = "--" := by
  apply String.toList_inj.mp
  unfold read at hread
  split at hread
  · next htext => exact htext
  · split at hread <;> cases hread
  · cases hread
  · cases hread

theorem Argument.read_attached (option : ValueOption) (text : String) :
    read (option.flag ++ "=" ++ text) = .long option.name (some text) := by
  unfold read ValueOption.flag
  cases option <;> simp [ValueOption.name]

theorem Argument.read_flag (option : ValueOption) : read option.flag = .long option.name none := by
  cases option <;> rfl

theorem Argument.read_allowFlag : read allowFlag = .long "allow-duplicate-changes" none := rfl

/-! ### Command lines -/

theorem meetAll?_cons (request : Request) (setting : Setting) (settings : List Setting) :
    request.meetAll? (setting :: settings) =
      (request.meet? setting).bind fun next => next.meetAll? settings := rfl

theorem meet?_of_set {request next : Request} {option : ValueOption} {argument text : String}
    (hset : request.set option argument text = .ok next) :
    request.meet? (.value option text) = some next := by
  rw [Request.meet?, toOption_set request option _ argument, hset]
  rfl

theorem meet?_of_set_error {request : Request} {option : ValueOption} {argument text : String}
    {error : UsageError} (hset : request.set option argument text = .error error) :
    request.meet? (.value option text) = none := by
  rw [Request.meet?, toOption_set request option _ argument, hset]
  rfl

theorem set_of_meet? {request next : Request} {option : ValueOption} {text : String}
    (hmeet : request.meet? (.value option text) = some next) (argument : String) :
    request.set option argument text = .ok next := by
  rw [Request.meet?, toOption_set request option _ argument] at hmeet
  cases hset : request.set option argument text with
  | error error =>
    rw [hset] at hmeet
    cases hmeet
  | ok found =>
    rw [hset] at hmeet
    cases hmeet
    rfl

/-- What a command line asks for after arguments that spell settings is what the rest asks for once
these are met. -/
theorem parse_append_eq_ok_iff {front back : List String} {settings : List Setting} {request : Request}
    {invocation : Invocation} (hspells : Spells front settings) :
    request.parse (front ++ back) = .ok invocation ↔
      ∃ next, request.meetAll? settings = some next ∧ next.parse back = .ok invocation := by
  induction hspells generalizing request with
  | nil => simp [Request.meetAll?]
  | attached option text _ ih =>
    have hname := ValueOption.ofName?_eq_some_iff.mpr (rfl : option.name = option.name)
    rw [List.cons_append, meetAll?_cons, Request.parse.eq_def]
    simp only [Argument.read_attached, hname]
    cases hset : request.set option (option.flag ++ "=" ++ text) text with
    | error error => simp [meet?_of_set_error hset]
    | ok next => simp [meet?_of_set hset, ih]
  | separate option hvalue _ ih =>
    have hname := ValueOption.ofName?_eq_some_iff.mpr (rfl : option.name = option.name)
    rw [List.cons_append, List.cons_append, meetAll?_cons, Request.parse.eq_def]
    simp only [Argument.read_flag, hname, hvalue, if_true]
    cases hset : request.set option option.flag _ with
    | error error => simp [meet?_of_set_error hset]
    | ok next => simp [meet?_of_set hset, ih]
  | allow _ ih =>
    have hvalue : ValueOption.ofName? "allow-duplicate-changes" = none := rfl
    have hswitch : Switch.ofName? "allow-duplicate-changes" = some .allowDuplicateChanges := rfl
    rw [List.cons_append, meetAll?_cons, Request.parse.eq_def, Request.meet?]
    simp only [Argument.read_allowFlag, hvalue, hswitch]
    cases hfirst : request.allowDuplicateChanges with
    | true => simp
    | false => simp [ih]

theorem exists_spells_of_parse {request result : Request} {arguments : List String}
    (hparse : request.parse arguments = .ok (.run result)) :
    ∃ front settings, Spells front settings ∧ (arguments = front ∨ arguments = front ++ ["--"]) ∧
      request.meetAll? settings = some result := by
  -- The cases are the branches of the reading. The five that can end in a run are an empty rest, a
  -- separator, an option with its value in one argument or in two, and the flag.
  fun_induction Request.parse request arguments with
  | case1 request =>
    cases hparse
    exact ⟨[], [], .nil, .inl rfl, rfl⟩
  | case3 request argument hread =>
    cases hparse
    rw [Argument.eq_of_read_separator hread]
    exact ⟨[], [], .nil, .inr rfl, rfl⟩
  | case9 request argument name option text rest hname next hset hread ih =>
    obtain ⟨front, settings, hspells, hends, hmeets⟩ := ih hparse
    obtain rfl := ValueOption.ofName?_eq_some_iff.mp hname
    rw [Argument.eq_of_read_long hread, Option.elim_some, ← String.append_assoc]
    refine ⟨_, _, .attached option text hspells, hends.imp (congrArg _) (congrArg _), ?_⟩
    rw [meetAll?_cons, meet?_of_set hset]
    exact hmeets
  | case11 request argument name option text rest hname hvalue next hset hread ih =>
    obtain ⟨front, settings, hspells, hends, hmeets⟩ := ih hparse
    obtain rfl := ValueOption.ofName?_eq_some_iff.mp hname
    rw [Argument.eq_of_read_long hread, Option.elim_none, String.append_empty]
    refine ⟨_, _, .separate option hvalue hspells, hends.imp (congrArg (_ :: text :: ·))
      (congrArg (_ :: text :: ·)), ?_⟩
    rw [meetAll?_cons, meet?_of_set hset]
    exact hmeets
  | case18 request argument name rest hname _ hfirst hread ih =>
    obtain ⟨front, settings, hspells, hends, hmeets⟩ := ih hparse
    obtain rfl := Switch.ofName?_eq_allow hname
    rw [Argument.eq_of_read_long hread]
    refine ⟨_, _, .allow hspells, hends.imp (congrArg _) (congrArg _), ?_⟩
    rw [meetAll?_cons, Request.meet?, if_neg hfirst]
    exact hmeets
  | _ => cases hparse

/-- A command line asks for a run exactly if it spells settings that can be met. A separator may stand
at its end. -/
theorem parseArguments_eq_run_iff {arguments : List String} {request : Request} :
    parseArguments arguments = .ok (.run request) ↔
      ∃ front settings, Spells front settings ∧ (arguments = front ∨ arguments = front ++ ["--"]) ∧
        Request.empty.meetAll? settings = some request := by
  constructor
  · exact exists_spells_of_parse
  · rintro ⟨front, settings, hspells, rfl | rfl, hmeets⟩
    · rw [← List.append_nil arguments]
      exact (parse_append_eq_ok_iff hspells).mpr ⟨request, hmeets, rfl⟩
    · exact (parse_append_eq_ok_iff hspells).mpr ⟨request, hmeets, rfl⟩

/-! ### Settings in order -/

/-- The values of an option, in order. -/
def valuesOf (option : ValueOption) (settings : List Setting) : List String :=
  settings.filterMap fun
    | .value other text => if other = option then some text else none
    | .allowDuplicateChanges => none

theorem valuesOf_append (option : ValueOption) (left right : List Setting) :
    valuesOf option (left ++ right) = valuesOf option left ++ valuesOf option right :=
  List.filterMap_append

/-- What a request says after settings that were met, in terms of what it said before. -/
structure Extends (request : Request) (settings : List Setting) (result : Request) : Prop where
  jars : result.jars = request.jars ++ valuesOf .jar settings
  xmls : result.xmls = request.xmls ++ valuesOf .xml settings
  deviceConfig :
    result.deviceConfig.toList = request.deviceConfig.toList ++ valuesOf .deviceConfig settings
  mergedConfig :
    result.mergedConfig.toList = request.mergedConfig.toList ++ valuesOf .mergedConfig settings
  indent : result.indent.toList.map some = request.indent.toList.map some ++
    (valuesOf .indent settings).map fun text => readUnsigned (maxOfBits 64) text.toList
  allows : result.allowDuplicateChanges = true ↔
    request.allowDuplicateChanges = true ∨ .allowDuplicateChanges ∈ settings

theorem Extends.refl (request : Request) : Extends request [] request := by
  constructor <;> simp [valuesOf]

theorem Extends.trans {request next result : Request} {left right : List Setting}
    (hleft : Extends request left next) (hright : Extends next right result) :
    Extends request (left ++ right) result where
  jars := by rw [hright.jars, hleft.jars, valuesOf_append, List.append_assoc]
  xmls := by rw [hright.xmls, hleft.xmls, valuesOf_append, List.append_assoc]
  deviceConfig := by
    rw [hright.deviceConfig, hleft.deviceConfig, valuesOf_append, List.append_assoc]
  mergedConfig := by
    rw [hright.mergedConfig, hleft.mergedConfig, valuesOf_append, List.append_assoc]
  indent := by
    rw [hright.indent, hleft.indent, valuesOf_append, List.map_append, List.append_assoc]
  allows := by rw [hright.allows, hleft.allows, List.mem_append, or_assoc]

theorem eq_none_of_setOnce {α : Type} {argument : String} {current : Option α} {value : α}
    {next : Option α → Request} {result : Request}
    (hset : (setOnce argument current value >>= fun found => pure (next found)) = .ok result) :
    current = none ∧ next (some value) = result := by
  cases current with
  | some _ => cases hset
  | none => exact ⟨rfl, Except.ok.inj hset⟩

theorem extends_of_set {request result : Request} {option : ValueOption} {argument text : String}
    (hset : request.set option argument text = .ok result) :
    Extends request [.value option text] result := by
  unfold Request.set at hset
  cases hempty : text.isEmpty with
  | true =>
    rw [hempty] at hset
    cases hset
  | false =>
    rw [hempty] at hset
    cases option with
    | jar | xml =>
      cases hset
      constructor <;> simp [valuesOf]
    | deviceConfig | mergedConfig =>
      obtain ⟨hcurrent, rfl⟩ := eq_none_of_setOnce hset
      constructor <;> simp [valuesOf, hcurrent]
    | indent =>
      unfold readIndent at hset
      cases hread : readUnsigned (maxOfBits 64) text.toList with
      | none =>
        rw [hread] at hset
        cases hset
      | some spaces =>
        rw [hread] at hset
        obtain ⟨hcurrent, rfl⟩ := eq_none_of_setOnce hset
        constructor <;> simp [valuesOf, hcurrent, hread]

theorem extends_of_meet? {request result : Request} {setting : Setting}
    (hmeet : request.meet? setting = some result) : Extends request [setting] result := by
  cases setting with
  | value option text => exact extends_of_set (set_of_meet? hmeet "")
  | allowDuplicateChanges =>
    rw [Request.meet?] at hmeet
    split at hmeet
    · cases hmeet
    · cases hmeet
      constructor <;> simp [valuesOf]

theorem extends_of_meetAll? {request result : Request} {settings : List Setting}
    (hmeets : request.meetAll? settings = some result) : Extends request settings result := by
  induction settings generalizing request with
  | nil =>
    cases hmeets
    exact .refl _
  | cons setting rest ih =>
    rw [meetAll?_cons] at hmeets
    obtain ⟨next, hnext, hrest⟩ := Option.bind_eq_some_iff.mp hmeets
    exact (extends_of_meet? hnext).trans (ih hrest)

/-! ### Leave to reuse ids and names -/

def Request.allowing (request : Request) : Request := { request with allowDuplicateChanges := true }

theorem set_allowing (request : Request) (option : ValueOption) (argument text : String) :
    request.allowing.set option argument text =
      (request.set option argument text).map Request.allowing := by
  unfold Request.set
  cases text.isEmpty with
  | true => rfl
  | false =>
    cases option with
    | jar | xml => rfl
    | deviceConfig => cases hcurrent : request.deviceConfig <;> simp [Request.allowing, hcurrent] <;> rfl
    | mergedConfig => cases hcurrent : request.mergedConfig <;> simp [Request.allowing, hcurrent] <;> rfl
    | indent =>
      cases readIndent argument text with
      | error error => rfl
      | ok spaces => cases hcurrent : request.indent <;> simp [Request.allowing, hcurrent] <;> rfl

def Invocation.allowing : Invocation → Invocation
  | .run request => .run request.allowing
  | .version => .version
  | .help => .help

theorem parse_allowing {request : Request} {arguments : List String} {invocation : Invocation}
    (hparse : request.parse arguments = .ok invocation) (hwithout : allowFlag ∉ arguments) :
    request.allowing.parse arguments = .ok invocation.allowing := by
  fun_induction Request.parse request arguments with
  | case1 request =>
    cases hparse
    rfl
  | case3 request argument hread | case5 request argument rest hread
  | case6 request argument rest hread =>
    cases hparse
    rw [Request.parse.eq_def]
    simp only [hread]
    rfl
  | case9 request argument name option text rest hname next hset hread ih =>
    have hnext := ih hparse fun hmem => hwithout (List.mem_cons_of_mem _ hmem)
    rw [Request.parse.eq_def]
    simp only [hread, hname, set_allowing, hset]
    exact hnext
  | case11 request argument name option text rest hname hvalue next hset hread ih =>
    have hnext := ih hparse fun hmem => hwithout (List.mem_cons_of_mem _ (List.mem_cons_of_mem _ hmem))
    rw [Request.parse.eq_def]
    simp only [hread, hname, hvalue, if_true, set_allowing, hset]
    exact hnext
  | case15 request argument name rest hswitch hname hread
  | case16 request argument name rest hswitch hname hread =>
    cases hparse
    rw [Request.parse.eq_def]
    simp only [hread, hname, hswitch]
    rfl
  | case18 request argument name rest hswitch hname hfirst hread =>
    -- The flag itself, which the second reading would refuse as a repetition.
    obtain rfl := Switch.ofName?_eq_allow hswitch
    obtain rfl : argument = allowFlag := Argument.eq_of_read_long hread
    exact absurd List.mem_cons_self hwithout
  | _ => cases hparse

theorem not_mem_of_spells {front : List String} {settings : List Setting} (hspells : Spells front settings)
    (hwithout : allowFlag ∉ front) : .allowDuplicateChanges ∉ settings := by
  induction hspells with
  | nil => exact List.not_mem_nil
  | attached option text _ ih =>
    intro hmem
    have hrest := (List.mem_cons.mp hmem).resolve_left nofun
    exact ih (fun hflag => hwithout (List.mem_cons_of_mem _ hflag)) hrest
  | separate option hvalue _ ih =>
    intro hmem
    have hrest := (List.mem_cons.mp hmem).resolve_left nofun
    exact ih (fun hflag => hwithout (List.mem_cons_of_mem _ (List.mem_cons_of_mem _ hflag))) hrest
  | allow _ _ => exact absurd List.mem_cons_self hwithout

/-- Without the flag there is no leave. -/
theorem not_allows_of_parse {arguments : List String} {request : Request}
    (hparse : parseArguments arguments = .ok (.run request)) (hwithout : allowFlag ∉ arguments) :
    request.allowDuplicateChanges = false := by
  obtain ⟨front, settings, hspells, hends, hmeets⟩ := parseArguments_eq_run_iff.mp hparse
  have hfront : allowFlag ∉ front := by
    rcases hends with rfl | rfl
    · exact hwithout
    · exact fun hmem => hwithout (List.mem_append_left _ hmem)
  have hallows := (extends_of_meetAll? hmeets).allows
  rw [← Bool.not_eq_true, hallows]
  exact not_or.mpr ⟨Bool.false_ne_true, not_mem_of_spells hspells hfront⟩

/-- With the flag between two options, a command line that was accepted asks for the same, with leave. -/
theorem parseArguments_insert_allow {front back : List String} {settings : List Setting}
    {invocation : Invocation} (hspells : Spells front settings) (hwithout : allowFlag ∉ front ++ back)
    (hparse : parseArguments (front ++ back) = .ok invocation) :
    parseArguments (front ++ allowFlag :: back) = .ok invocation.allowing := by
  obtain ⟨hfront, hback⟩ := not_or.mp (mt List.mem_append.mpr hwithout)
  obtain ⟨next, hmeets, hnext⟩ := (parse_append_eq_ok_iff hspells).mp hparse
  have hstrict : ¬next.allowDuplicateChanges = true := by
    rw [(extends_of_meetAll? hmeets).allows]
    exact not_or.mpr ⟨Bool.false_ne_true, not_mem_of_spells hspells hfront⟩
  refine (parse_append_eq_ok_iff hspells).mpr ⟨next, hmeets, ?_⟩
  have hflag : Spells [allowFlag] [.allowDuplicateChanges] := .allow .nil
  refine (parse_append_eq_ok_iff hflag).mpr ⟨next.allowing, ?_, parse_allowing hnext hback⟩
  rw [meetAll?_cons, Request.meet?, if_neg hstrict]
  rfl

end CompatChanges.Command
