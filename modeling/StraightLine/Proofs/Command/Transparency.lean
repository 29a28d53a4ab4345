import StraightLine.Proofs.Command.Arguments
import StraightLine.Proofs.Compile.Stages

/-! The list of tokens is only put in front of what a run prints. A run with `--tokens` among its
arguments ends as the run without, has the same messages, and prints the same behind the list. Only
if the text has no tokens to list does it stop earlier, and then it leaves out what the compilation
would have logged. -/
namespace StraightLine.Command

section Channels

variable (exit : UInt8) (ls ls' : List Line) (texts : List String)

theorem Outcome.stdout_append :
    Outcome.stdout ⟨ls ++ ls', exit⟩ = Outcome.stdout ⟨ls, exit⟩ ++ Outcome.stdout ⟨ls', exit⟩ :=
  List.filterMap_append

theorem Outcome.stderr_append :
    Outcome.stderr ⟨ls ++ ls', exit⟩ = Outcome.stderr ⟨ls, exit⟩ ++ Outcome.stderr ⟨ls', exit⟩ :=
  List.filterMap_append

theorem Outcome.stdout_map_out : Outcome.stdout ⟨texts.map .out, exit⟩ = texts := by
  induction texts with
  | nil => rfl
  | cons text texts ih => exact congrArg (text :: ·) ih

theorem Outcome.stderr_map_out : Outcome.stderr ⟨texts.map .out, exit⟩ = [] := by
  induction texts with
  | nil => rfl
  | cons text texts ih => exact ih

theorem Outcome.stdout_logLine (setting level : LogLevel) (text : String) :
    Outcome.stdout ⟨logLine setting level text, exit⟩ = [] := by
  unfold logLine
  split <;> rfl

theorem Outcome.stdout_logEvents (setting : LogLevel) (log : Array Event) :
    Outcome.stdout ⟨logEvents setting log, exit⟩ = [] := by
  unfold logEvents
  induction log.toList with
  | nil => rfl
  | cons e es ih =>
    rw [List.flatMap_cons, stdout_append, stdout_logLine, ih]
    rfl

structure Outcome.HeadedBy (o : Outcome) (messages : List String) (o' : Outcome) : Prop where
  exit : o.exit = o'.exit
  stdout : o.stdout = o'.stdout
  stderr : o.stderr = messages ++ o'.stderr

theorem Outcome.headedBy_logLine (o : Outcome) (setting level : LogLevel) (text : String) :
    HeadedBy ⟨logLine setting level text ++ o.lines, o.exit⟩
      (Outcome.stderr ⟨logLine setting level text, 0⟩) o where
  exit := rfl
  stdout := by
    rw [stdout_append, stdout_logLine]
    exact List.nil_append _
  stderr := stderr_append _ _ _

end Channels

/-- Whatever a compilation tells, it takes a setting beyond `info` to see it. -/
theorem logEvents_eq_nil {setting : LogLevel} (h : setting.rank ≤ LogLevel.rank .info)
    (log : Array Event) : logEvents setting log = [] := by
  refine List.flatMap_eq_nil_iff.2 ?_
  intro e _
  have hlevel : LogLevel.rank .info < (LogLevel.ofEvent e).rank := by
    cases e <;> simp [LogLevel.ofEvent, LogLevel.rank]
  exact if_neg (by omega)

/-- The list of tokens as it is printed; the end of the text is not in it. -/
def tokenListing (ts : List Token) : List String :=
  "Tokens:" :: (ts.filter fun t => !t.isEof).map Token.text ++ ["--- End of tokens ---", ""]

theorem not_mem_tokenListing (ts : List Token) : "Intermediate Code:" ∉ tokenListing ts := by
  have htext (t : Token) : t.text ≠ "Intermediate Code:" := by
    intro h
    have hhead := congrArg (fun text => text.toList.head?) h
    simp [Token.text] at hhead
  simp [tokenListing, htext]

section Source

variable (setting : LogLevel) {source : String}

theorem compileSource_of_error {e : CompileError} (h : compile source = .error e) :
    ∃ log, compileSource setting source = ⟨logEvents setting log ++ [errorLine e.message], 1⟩ := by
  rw [compileSource, Report.ofSource_eq, h]
  exact ⟨_, rfl⟩

theorem stdout_compileSource_of_error {e : CompileError} (h : compile source = .error e) :
    (compileSource setting source).stdout = [] := by
  obtain ⟨log, hrun⟩ := compileSource_of_error setting h
  rw [hrun, Outcome.stdout_append, Outcome.stdout_logEvents]
  rfl

theorem stdout_compileSource_of_ok {c : Compiled} (h : compile source = .ok c) :
    (compileSource setting source).exit = 0 ∧ (compileSource setting source).stdout =
      "Intermediate Code:" :: c.listing ++ ["", "Symbol Table:"] ++
        c.symbols.toList.map fun s => s.name ++ ": " ++ s.text := by
  have hlines : compiledLines c = ("Intermediate Code:" :: c.listing ++ ["", "Symbol Table:"] ++
      c.symbols.toList.map fun s => s.name ++ ": " ++ s.text).map Line.out := by
    simp [compiledLines]
  rw [compileSource, Report.ofSource_eq, h]
  refine ⟨rfl, ?_⟩
  simp only [hlines]
  rw [Outcome.stdout_append, Outcome.stdout_logEvents, Outcome.stdout_map_out, List.nil_append]

/-- Code is printed if there is some, and only then is the status 0. -/
theorem compileSource_reaches_code (source : String) :
    ("Intermediate Code:" ∈ (compileSource setting source).stdout ↔ ∃ c, compile source = .ok c) ∧
    ((compileSource setting source).exit = 0 ↔ ∃ c, compile source = .ok c) := by
  cases h : compile source with
  | error e =>
    obtain ⟨log, hrun⟩ := compileSource_of_error setting h
    rw [stdout_compileSource_of_error setting h, hrun]
    simp
  | ok c =>
    obtain ⟨hexit, hout⟩ := stdout_compileSource_of_ok setting h
    rw [hexit, hout]
    exact ⟨iff_of_true List.mem_cons_self ⟨c, rfl⟩, iff_of_true rfl ⟨c, rfl⟩⟩

variable (path : String)

theorem processSource_of_tokens {ts : List Token} (h : tokenize source = .ok ts) :
    processSource setting ⟨path, true⟩ source =
      ⟨(tokenListing ts).map .out ++ (compileSource setting source).lines,
        (compileSource setting source).exit⟩ := by
  simp [processSource, h, tokenListing, tokenLines, Function.comp_def]

theorem processSource_of_lexicalError {e : LexicalError} (h : tokenize source = .error e) :
    processSource setting ⟨path, true⟩ source = ⟨[.out "Tokens:", errorLine e.message], 1⟩ := by
  simp [processSource, h]

theorem stdout_processSource_of_tokens {ts : List Token} (h : tokenize source = .ok ts) :
    (processSource setting ⟨path, true⟩ source).stdout =
      tokenListing ts ++ (compileSource setting source).stdout := by
  rw [processSource_of_tokens setting path h]
  exact (Outcome.stdout_append _ _ _).trans (congrArg (· ++ _) (Outcome.stdout_map_out _ _))

theorem stderr_processSource_of_tokens {ts : List Token} (h : tokenize source = .ok ts) :
    (processSource setting ⟨path, true⟩ source).stderr = (compileSource setting source).stderr := by
  rw [processSource_of_tokens setting path h, Outcome.stderr_append, Outcome.stderr_map_out]
  exact List.nil_append _

/-- Without tokens to list a run says what is wrong with the text, as the compilation does. -/
theorem processSource_agrees_of_lexicalError {e : LexicalError} (h : tokenize source = .error e) :
    (processSource setting ⟨path, true⟩ source).exit = (compileSource setting source).exit ∧
    (setting.rank ≤ LogLevel.rank .info →
      (processSource setting ⟨path, true⟩ source).stderr =
        (compileSource setting source).stderr) := by
  obtain ⟨log, hlog⟩ := compileSource_of_error setting (compile_of_lexicalError h)
  rw [processSource_of_lexicalError setting path h, hlog]
  refine ⟨rfl, ?_⟩
  intro hsetting
  rw [logEvents_eq_nil hsetting]
  rfl

theorem exit_processSource_ne_two (config : Config) (source : String) :
    (processSource setting config source).exit ≠ 2 := by
  have hcompile : (compileSource setting source).exit ≠ 2 := by
    unfold compileSource
    split <;> simp
  unfold processSource
  split
  · split
    · simp
    · exact hcompile
  · exact hcompile

/-- The list of tokens is never taken for code, and a text without one has no code. -/
theorem processSource_reaches_code (config : Config) (source : String) :
    ("Intermediate Code:" ∈ (processSource setting config source).stdout ↔
      ∃ c, compile source = .ok c) ∧
    ((processSource setting config source).exit = 0 ↔ ∃ c, compile source = .ok c) := by
  have hcode := compileSource_reaches_code setting source
  obtain ⟨path, dump⟩ := config
  cases dump with
  | false => exact hcode
  | true =>
    cases h : tokenize source with
    | error e =>
      rw [processSource_of_lexicalError setting path h, compile_of_lexicalError h]
      simp [Outcome.stdout, errorLine]
    | ok ts =>
      rw [stdout_processSource_of_tokens setting path h, processSource_of_tokens setting path h,
        List.mem_append, or_iff_right (not_mem_tokenListing ts)]
      exact hcode

end Source

section Run

variable (program : String) (setting : LogLevel) (files : String → Except FileError ByteArray)

/-- A run fails without a text to compile, or gives what the text gives. -/
theorem run_cases (args : List String) :
    (source? args files = none ∧ (run program args setting files).exit ≠ 0 ∧
      (run program args setting files).stdout = []) ∨
    ∃ config source messages, source? args files = some source ∧
      (run program args setting files).HeadedBy messages (processSource setting config source) := by
  unfold run source?
  cases Config.ofArgs args with
  | error e => exact .inl ⟨rfl, by simp, rfl⟩
  | ok config =>
    simp only
    cases files config.path >>= textOf with
    | error e => exact .inl ⟨rfl, by simp, rfl⟩
    | ok source => exact .inr ⟨config, source, _, rfl, Outcome.headedBy_logLine _ _ _ _⟩

theorem run_reaches_code (args : List String) :
    ("Intermediate Code:" ∈ (run program args setting files).stdout ↔
      (run program args setting files).exit = 0) ∧
    ((run program args setting files).exit = 0 ↔
      ∃ source c, source? args files = some source ∧ compile source = .ok c) := by
  obtain ⟨hnone, hexit, hout⟩ | ⟨config, source, messages, hsource, hrun⟩ :=
    run_cases program setting files args
  · simp [hnone, hexit, hout]
  · obtain ⟨hprinted, hexit⟩ := processSource_reaches_code setting config source
    rw [hrun.stdout, hrun.exit, hprinted, hexit, hsource]
    simp

/-- Arguments that do not fit, and nothing else, give the status 2. -/
theorem exit_run_eq_two_iff (args : List String) :
    (run program args setting files).exit = 2 ↔ ¬∃ path, Config.Names args path := by
  have hiff := Config.ofArgs_eq_ok_iff args
  unfold run
  cases h : Config.ofArgs args with
  | error e =>
    refine iff_of_true rfl ?_
    rintro ⟨path, hpath⟩
    cases h.symm.trans ((hiff ⟨path, _⟩).2 ⟨hpath, rfl⟩)
  | ok config =>
    refine iff_of_false ?_ (not_not_intro ⟨config.path, ((hiff config).1 h).1⟩)
    simp only
    cases files config.path >>= textOf with
    | error e => simp
    | ok source => exact exit_processSource_ne_two setting config source

variable {args dumped : List String}

theorem run_dumped_of_none (hargs : dumped.filter (fun a => a ≠ "--tokens") = args)
    (hdumped : "--tokens" ∈ dumped) (h : source? args files = none) :
    run program dumped setting files = run program args setting files := by
  obtain ⟨e, hplain, hfull⟩ | ⟨path, hplain, hfull⟩ := Config.ofArgs_cases hargs hdumped
  · simp only [run, hplain, hfull]
  · simp only [source?, hplain] at h
    simp only [run, hplain, hfull]
    cases hfile : files path >>= textOf with
    | error e => rfl
    | ok source =>
      rw [hfile] at h
      cases h

/-- What is logged before a text is compiled is about the file, so the flag does not change it. -/
theorem run_dumped_of_some (hargs : dumped.filter (fun a => a ≠ "--tokens") = args)
    (hdumped : "--tokens" ∈ dumped) {source : String} (h : source? args files = some source) :
    ∃ path messages,
      (run program args setting files).HeadedBy messages (compileSource setting source) ∧
      (run program dumped setting files).HeadedBy messages
        (processSource setting ⟨path, true⟩ source) := by
  obtain ⟨e, hplain, -⟩ | ⟨path, hplain, hfull⟩ := Config.ofArgs_cases hargs hdumped
  · rw [source?, hplain] at h
    cases h
  · simp only [source?, hplain] at h
    simp only [run, hplain, hfull]
    cases hfile : files path >>= textOf with
    | error e =>
      rw [hfile] at h
      cases h
    | ok text =>
      rw [hfile] at h
      cases h
      exact ⟨path, _, Outcome.headedBy_logLine _ _ _ _, Outcome.headedBy_logLine _ _ _ _⟩

end Run

/-- Two runs whose arguments differ only in that `--tokens` is at one place or more in those of one:
they end with the same status, and what they print differs only by the list of tokens. -/
theorem run_tokens_transparent {args dumped : List String}
    (hargs : dumped.filter (fun a => a ≠ "--tokens") = args) (hdumped : "--tokens" ∈ dumped)
    (program : String) (setting : LogLevel) (files : String → Except FileError ByteArray) :
    let plain := run program args setting files
    let full := run program dumped setting files
    full.exit = plain.exit ∧
    (match source? args files with
    | none => plain.stdout = [] ∧ full.stdout = [] ∧ full.stderr = plain.stderr
    | some source =>
      match tokenize source with
      | .error _ => plain.stdout = [] ∧ full.stdout = ["Tokens:"] ∧
          (setting.rank ≤ LogLevel.rank .info → full.stderr = plain.stderr)
      | .ok ts => full.stderr = plain.stderr ∧ full.stdout = tokenListing ts ++ plain.stdout) ∧
    ∀ as ∈ [args, dumped],
      ("Intermediate Code:" ∈ (run program as setting files).stdout ↔
        (run program as setting files).exit = 0) ∧
      ((run program as setting files).exit = 0 ↔
        ∃ source c, source? as files = some source ∧ compile source = .ok c) := by
  intro plain full
  have hreach : ∀ as ∈ [args, dumped], _ := fun as _ => run_reaches_code program setting files as
  rw [and_iff_left hreach]
  cases hsource : source? args files with
  | none =>
    have hsame : full = plain := run_dumped_of_none program setting files hargs hdumped hsource
    obtain ⟨-, -, hout⟩ | ⟨_, _, _, hsome, -⟩ := run_cases program setting files args
    · rw [hsame]
      exact ⟨rfl, hout, hout, rfl⟩
    · cases hsource.symm.trans hsome
  | some source =>
    obtain ⟨path, messages, hplain, hfull⟩ :=
      run_dumped_of_some program setting files hargs hdumped hsource
    simp only [plain, full, hplain.exit, hfull.exit, hplain.stdout, hfull.stdout, hplain.stderr,
      hfull.stderr]
    cases hts : tokenize source with
    | error e =>
      obtain ⟨hexit, herr⟩ := processSource_agrees_of_lexicalError setting path hts
      have hout := stdout_compileSource_of_error setting (compile_of_lexicalError hts)
      refine ⟨hexit, hout, ?_, fun hsetting => congrArg (messages ++ ·) (herr hsetting)⟩
      rw [processSource_of_lexicalError setting path hts]
      rfl
    | ok ts =>
      have herr := stderr_processSource_of_tokens setting path hts
      refine ⟨?_, congrArg (messages ++ ·) herr, stdout_processSource_of_tokens setting path hts⟩
      rw [processSource_of_tokens setting path hts]

/-- With the flag on both sides of the path: a text that compiles, and one whose name is not
declared. -/
theorem run_tokens_transparent_both_outcomes :
    let files (text : String) : String → Except FileError ByteArray := fun _ => .ok text.toUTF8
    let plain (text : String) := run "calc" ["p"] .trace (files text)
    let full (text : String) := run "calc" ["--tokens", "p", "--tokens"] .trace (files text)
    ((plain "var x=1+2;").stdout = ["Intermediate Code:", "t1 = 1 + 2", "x = t1", "",
        "Symbol Table:", "x: {type: int, value: None}"] ∧
      (full "var x=1+2;").exit = 0 ∧ (full "var x=1+2;").stderr = (plain "var x=1+2;").stderr ∧
      (full "var x=1+2;").stdout = ["Tokens:", "Token(VAR, var)", "Token(IDENTIFIER, x)",
        "Token(ASSIGN, =)", "Token(INTEGER, 1)", "Token(PLUS, +)", "Token(INTEGER, 2)",
        "Token(SEMICOLON, ;)", "--- End of tokens ---", ""] ++ (plain "var x=1+2;").stdout) ∧
    (full "x=1;").exit = (plain "x=1;").exit ∧ (full "x=1;").stderr = (plain "x=1;").stderr ∧
      (full "x=1;").stdout = ["Tokens:", "Token(IDENTIFIER, x)", "Token(ASSIGN, =)",
        "Token(INTEGER, 1)", "Token(SEMICOLON, ;)", "--- End of tokens ---", ""] ++
        (plain "x=1;").stdout := by
  intro files plain full
  have hargs : ["--tokens", "p", "--tokens"].filter (fun a => a ≠ "--tokens") = ["p"] := by decide
  have hdumped : "--tokens" ∈ ["--tokens", "p", "--tokens"] := by decide
  have hnames : Config.Names ["p"] "p" := ⟨by decide, by decide⟩
  have hsource (text : String) (h : textOf text.toUTF8 = .ok text) :
      source? ["p"] (files text) = some text := (source?_eq_some_iff ..).2 ⟨"p", hnames, h⟩
  have hgood : tokenize "var x=1+2;" = .ok [⟨.var, ⟨1, 1⟩⟩, ⟨.identifier "x", ⟨1, 5⟩⟩,
      ⟨.assign, ⟨1, 6⟩⟩, ⟨.integer 1, ⟨1, 7⟩⟩, ⟨.operator .add, ⟨1, 8⟩⟩, ⟨.integer 2, ⟨1, 9⟩⟩,
      ⟨.semicolon, ⟨1, 10⟩⟩, ⟨.eof, ⟨1, 11⟩⟩] := by decide +kernel
  have hbad : tokenize "x=1;" = .ok [⟨.identifier "x", ⟨1, 1⟩⟩, ⟨.assign, ⟨1, 2⟩⟩,
      ⟨.integer 1, ⟨1, 3⟩⟩, ⟨.semicolon, ⟨1, 4⟩⟩, ⟨.eof, ⟨1, 5⟩⟩] := by decide +kernel
  refine ⟨?_, ?_⟩
  · obtain ⟨hexit, hprinted, -⟩ :=
      run_tokens_transparent hargs hdumped "calc" .trace (files "var x=1+2;")
    simp only [hsource "var x=1+2;" (by decide +kernel), hgood] at hprinted
    exact ⟨by decide +kernel, hexit.trans (by decide +kernel), hprinted⟩
  · obtain ⟨hexit, hprinted, -⟩ :=
      run_tokens_transparent hargs hdumped "calc" .trace (files "x=1;")
    simp only [hsource "x=1;" (by decide +kernel), hbad] at hprinted
    exact ⟨hexit, hprinted⟩

end StraightLine.Command
