import Mathlib.Data.Finset.Basic
import Fluxion.Session.Line

/-!
# What one line has to do with another

Lines of a session meet only in the options, and only the commands `:var`, `:mode` and `:order`
change those. So the options after a line are those that were set last, and a line that sets nothing
may as well be left out: all others are answered as before (`Session.handleLines_settings`).

What a line does to the options is told by its command alone (`Session.handleLine_options`),
whatever is read, evaluated or refused on the way. The rest is by induction on the lines.
-/

namespace Fluxion

/-! ## Commands that set something -/

namespace Text

theorem trim_of_white {cs : List Char} (h : cs.all isWhite = true) : trim cs = [] := by
  have hdrop : cs.dropWhile isWhite = [] := by
    induction cs with
    | nil => rfl
    | cons c cs ih =>
      obtain ⟨hc, hcs⟩ := (Bool.and_eq_true _ _).mp h
      rw [List.dropWhile_cons_of_pos hc]
      exact ih hcs
  rw [trim, hdrop]
  rfl

end Text

namespace Command

/-- The variable that a command sets. -/
def variableSet? : Command → Option String
  | setVariable name => some name
  | _ => none

/-- The mode that a command sets. -/
def modeSet? : Command → Option Mode
  | setMode mode => some mode
  | _ => none

/-- The order that a command sets. -/
def orderSet? : Command → Option Nat
  | setOrder order => some order
  | _ => none

/-- The words of a line behind the colon that it starts with. -/
def wordsOf (line : String) : List String :=
  match Text.trim line.toList with
  | ':' :: cs => (Text.words cs).map String.ofList
  | _ => []

/-- The words of a command that sets something, with the options before and after it. -/
inductive Setting : List String → Options → Options → Prop
  | variableName (name : String) (rest : List String) (o : Options) :
      Setting ("var" :: name :: rest) o { o with variableName := name }
  | mode {text : String} {mode : Mode} (rest : List String) (o : Options) :
      Mode.ofText? text = some mode → Setting ("mode" :: text :: rest) o { o with mode := mode }
  | order {text : String} {order : Nat} (rest : List String) (o : Options) :
      readOrder? text = some order → Setting ("order" :: text :: rest) o { o with order := order }

/-- The line starts with a colon and the name of a command that sets something. -/
def NamesSetting (line : String) : Prop :=
  (wordsOf line).head? ∈ [some "var", some "mode", some "order"]

/-- The command changes options; the others show something. -/
def sets : Command → Bool
  | setVariable _ | setMode _ | setOrder _ => true
  | showOptions | showHelp => false

theorem apply_eq (c : Command) (o : Options) :
    c.apply o =
      ⟨c.variableSet?.getD o.variableName, c.modeSet?.getD o.mode, c.orderSet?.getD o.order⟩ := by
  cases c <;> rfl

theorem apply_of_not_sets {c : Command} (h : c.sets = false) (o : Options) : c.apply o = o := by
  cases c with
  | setVariable name => cases h
  | setMode mode => cases h
  | setOrder order => cases h
  | showOptions => rfl
  | showHelp => rfl

/-- The command of a line, unless the line is none or a wrong one. -/
def accepted? (line : String) : Option Command :=
  match ofLine? line with
  | some (.ok c) => some c
  | _ => none

/-- A command that sets something has the words for it. -/
theorem setting_of_ofWords {words : List String} {c : Command}
    (h : ofWords (words.head?.getD "") words.tail.head? = .ok c) (hc : c.sets = true)
    (o : Options) :
    Setting words o (c.apply o) := by
  match words with
  | [] => cases h
  | [name] =>
    rw [List.head?_cons, Option.getD_some, List.tail_cons, List.head?_nil] at h
    unfold ofWords at h
    split at h
    · next heq => cases heq
    · next heq => cases heq
    · next heq => cases heq
    all_goals cases h <;> cases hc
  | name :: text :: rest =>
    rw [List.head?_cons, Option.getD_some, List.tail_cons, List.head?_cons] at h
    unfold ofWords at h
    split at h
    · next heq =>
      cases heq
      obtain ⟨-, rfl⟩ := readVariable_eq_ok h
      exact .variableName text rest o
    · next heq =>
      cases heq
      obtain ⟨mode, hmode, rfl⟩ := readMode_eq_ok h
      exact .mode rest o hmode
    · next heq =>
      cases heq
      obtain ⟨order, horder, rfl⟩ := readOrder_eq_ok h
      exact .order rest o horder
    all_goals cases h <;> cases hc

/-- Under the name of a command that sets something no other command is accepted. -/
theorem sets_of_ofWords {name : String} {argument : Option String} {c : Command}
    (hname : name ∈ ["var", "mode", "order"]) (h : ofWords name argument = .ok c) :
    c.sets = true := by
  simp only [List.mem_cons, List.not_mem_nil, or_false] at hname
  cases argument with
  | none => rcases hname with rfl | rfl | rfl <;> cases h
  | some text =>
    rcases hname with rfl | rfl | rfl
    · obtain ⟨-, rfl⟩ := readVariable_eq_ok h
      rfl
    · obtain ⟨mode, -, rfl⟩ := readMode_eq_ok h
      rfl
    · obtain ⟨order, -, rfl⟩ := readOrder_eq_ok h
      rfl

/-- The command is read off the words, and a line that is no command has none. -/
theorem ofLine?_eq_words (line : String) :
    ofLine? line = none ∧ wordsOf line = [] ∨
      ofLine? line = some (ofWords ((wordsOf line).head?.getD "") (wordsOf line).tail.head?) := by
  cases h : Text.trim line.toList with
  | nil =>
    refine Or.inl ⟨?_, ?_⟩
    · rw [ofLine?, h]
    · rw [wordsOf, h]
  | cons c cs =>
    by_cases hc : c = ':'
    · refine Or.inr ?_
      rw [ofLine?, wordsOf, h, hc]
      rfl
    · refine Or.inl ⟨?_, ?_⟩
      · rw [ofLine?, h]
        simp [hc]
      · rw [wordsOf, h]
        simp [hc]

theorem ofLine?_of_white {line : String} (h : line.toList.all Text.isWhite = true) :
    ofLine? line = none := by
  rw [ofLine?, Text.trim_of_white h]

/-- A line that is accepted and sets something has the words for it. -/
theorem setting_of_accepted? {line : String} {c : Command} (h : accepted? line = some c)
    (hc : c.sets = true) (o : Options) : Setting (wordsOf line) o (c.apply o) := by
  unfold accepted? at h
  rcases ofLine?_eq_words line with ⟨hline, -⟩ | hline
  · rw [hline] at h
    cases h
  · rw [hline] at h
    split at h
    · next hok =>
      cases h
      exact setting_of_ofWords (Option.some.inj hok) hc o
    · cases h

end Command

namespace Session

open Command

/-- The line is a command that sets something, and is accepted. -/
def setsOption (line : String) : Bool := (accepted? line).any sets

/-- The value set by the last of some lines that set one, which are accepted as commands. -/
def lastSet {β : Type} (set? : Command → Option β) (initial : β) (lines : List String) : β :=
  (lines.filterMap fun line => (accepted? line).bind set?).getLast?.getD initial

/-- The options with all that was set last by some lines. -/
def settings (o : Options) (lines : List String) : Options where
  variableName := lastSet variableSet? o.variableName lines
  mode := lastSet modeSet? o.mode lines
  order := lastSet orderSet? o.order lines

/-- The entries of a list without those at some positions, where the first has the number `start`.
-/
def leaveOut {β : Type} (positions : Finset ℕ) (start : ℕ) (bs : List β) : List β :=
  ((bs.zipIdx start).filter fun b => decide (b.2 ∉ positions)).map Prod.fst

/-! ## One line -/

theorem accepted?_of_setsOption {line : String} (h : setsOption line = true) :
    ∃ c, accepted? line = some c ∧ c.sets = true := by
  unfold setsOption at h
  cases hline : accepted? line with
  | none =>
    rw [hline] at h
    cases h
  | some c =>
    rw [hline] at h
    exact ⟨c, rfl, h⟩

/-- A command that is accepted is carried out and answered. -/
theorem handleLine_of_accepted? {line : String} {c : Command} (h : accepted? line = some c)
    (o : Options) : handleLine line o = (.printed (c.reply (c.apply o)), c.apply o) := by
  have hline : ofLine? line = some (.ok c) := by
    unfold accepted? at h
    split at h
    · next c' hline =>
      cases h
      exact hline
    · cases h
  have hwhite : ¬ line.toList.all Text.isWhite = true := by
    intro hwhite
    rw [ofLine?_of_white hwhite] at hline
    cases hline
  rw [handleLine, if_neg hwhite, hline]

/-- Any other line leaves the options. -/
theorem handleLine_of_not_accepted? {line : String} (h : accepted? line = none) (o : Options) :
    (handleLine line o).2 = o := by
  unfold handleLine
  split
  · rfl
  · split
    · next c hline =>
      rw [accepted?, hline] at h
      cases h
    · rfl
    · split <;> rfl

/-- The options after a line are told by its command. -/
theorem handleLine_options (line : String) (o : Options) :
    (handleLine line o).2 = ((accepted? line).map fun c => c.apply o).getD o := by
  cases h : accepted? line with
  | none => exact handleLine_of_not_accepted? h o
  | some c => rw [handleLine_of_accepted? h]; rfl

/-- A line that sets nothing leaves the options. -/
theorem handleLine_of_not_setsOption {line : String} (h : setsOption line = false) (o : Options) :
    (handleLine line o).2 = o := by
  rw [handleLine_options]
  cases hline : accepted? line with
  | none => rfl
  | some c =>
    rw [setsOption, hline] at h
    exact apply_of_not_sets h o

/-- A line that is read as a command is refused unless the command is accepted. -/
theorem accepted?_of_not_refused {line : String} {r : Except CommandError Command}
    (hline : ofLine? line = some r) {o : Options} (h : ∀ e, (handleLine line o).1 ≠ .refused e) :
    ∃ c, r = .ok c ∧ accepted? line = some c := by
  cases r with
  | ok c => exact ⟨c, rfl, by rw [accepted?, hline]⟩
  | error e =>
    have hwhite : ¬ line.toList.all Text.isWhite = true := by
      intro hwhite
      rw [ofLine?_of_white hwhite] at hline
      cases hline
    refine absurd ?_ (h (.command e))
    rw [handleLine, if_neg hwhite, hline]

/-- The lines that set something are those that have the name for it and are not refused. -/
theorem setsOption_iff (line : String) (o : Options) :
    setsOption line = true ↔ NamesSetting line ∧ ∀ e, (handleLine line o).1 ≠ .refused e := by
  constructor
  · intro h
    obtain ⟨c, hline, hc⟩ := accepted?_of_setsOption h
    refine ⟨?_, fun e => ?_⟩
    · have hwords := setting_of_accepted? hline hc o
      unfold NamesSetting
      generalize wordsOf line = words, c.apply o = o' at hwords ⊢
      cases hwords <;> simp
    · rw [handleLine_of_accepted? hline]
      exact nofun
  -- a command that is not refused was accepted, so it was read from these words
  · rintro ⟨hnames, hrefused⟩
    rcases ofLine?_eq_words line with ⟨-, hwords⟩ | hline
    · rw [NamesSetting, hwords] at hnames
      simp at hnames
    · obtain ⟨c, hok, haccepted⟩ := accepted?_of_not_refused hline hrefused
      rw [setsOption, haccepted]
      refine sets_of_ofWords ?_ hok
      unfold NamesSetting at hnames
      generalize wordsOf line = words at hnames ⊢
      cases words with
      | nil => simp at hnames
      | cons name words => simpa using hnames

/-- A line that sets something sets what its words say. -/
theorem setting_handleLine {line : String} (h : setsOption line = true) (o : Options) :
    Setting (wordsOf line) o (handleLine line o).2 := by
  obtain ⟨c, hline, hc⟩ := accepted?_of_setsOption h
  rw [handleLine_of_accepted? hline]
  exact setting_of_accepted? hline hc o

/-! ## All lines -/

theorem lastSet_cons {β : Type} (set? : Command → Option β) (initial : β) (line : String)
    (lines : List String) : lastSet set? initial (line :: lines) =
      lastSet set? (((accepted? line).bind set?).getD initial) lines := by
  rw [lastSet, lastSet, List.filterMap_cons]
  cases (accepted? line).bind set? with
  | none => rfl
  | some b => rw [List.getLast?_cons, Option.getD_some, Option.getD_some]

/-- Settings after a line are those on top of what it leaves. -/
theorem settings_cons (o : Options) (line : String) (lines : List String) :
    settings o (line :: lines) = settings (handleLine line o).2 lines := by
  rw [settings, settings, lastSet_cons, lastSet_cons, lastSet_cons, handleLine_options]
  cases accepted? line with
  | none => rfl
  | some c => rw [Option.map_some, Option.getD_some, apply_eq]; rfl

/-- There is an answer to each line, and after it the options are those that this line and the ones
before it have set last. -/
theorem options_handleLines (lines : List String) (o : Options) (k : ℕ) :
    ((handleLines lines o)[k]?).map Prod.snd =
      lines[k]?.map fun _ => settings o (lines.take (k + 1)) := by
  induction lines generalizing o k with
  | nil => rfl
  | cons line lines ih =>
    rw [handleLines, List.take_succ_cons, settings_cons]
    cases k with
    | zero => rfl
    | succ k =>
      rw [List.getElem?_cons_succ, List.getElem?_cons_succ]
      exact ih _ k

/-! ## Lines left out -/

theorem leaveOut_cons {β : Type} (positions : Finset ℕ) (start : ℕ) (b : β) (bs : List β) :
    leaveOut positions start (b :: bs) =
      if start ∈ positions then leaveOut positions (start + 1) bs
      else b :: leaveOut positions (start + 1) bs := by
  rw [leaveOut, List.zipIdx_cons, List.filter_cons]
  by_cases h : start ∈ positions
  · rw [if_pos h, if_neg (by simpa using h)]
    rfl
  · rw [if_neg h, if_pos (by simpa using h)]
    rfl

/-- Lines that set nothing can be left out. -/
theorem handleLines_leaveOut {positions : Finset ℕ} {lines : List String} {start : ℕ}
    (h : ∀ k, start + k ∈ positions → ∀ line ∈ lines[k]?, setsOption line = false) (o : Options) :
    handleLines (leaveOut positions start lines) o =
      leaveOut positions start (handleLines lines o) := by
  induction lines generalizing start o with
  | nil => rfl
  | cons line lines ih =>
    have hothers : ∀ k, start + 1 + k ∈ positions →
        ∀ line ∈ lines[k]?, setsOption line = false := by
      intro k hk
      exact h (k + 1) (by rwa [Nat.add_assoc, Nat.add_comm 1 k] at hk)
    rw [handleLines, leaveOut_cons, leaveOut_cons]
    by_cases hstart : start ∈ positions
    · have hsame : (handleLine line o).2 = o :=
        handleLine_of_not_setsOption (h 0 hstart line rfl) o
      rw [if_pos hstart, if_pos hstart, ih hothers, hsame]
    · rw [if_neg hstart, if_neg hstart, handleLines, ih hothers]

/-- From the first line on the options are those set last, by the accepted commands among the lines
so far. These are the lines that have the name of such a command and are not refused, and what each
sets is told by its words. Any other line leaves the options as they are, and if any number of such
lines are left out, the others are answered as before, with the same options. -/
theorem handleLines_settings (lines : List String) :
    (∀ k, ((handleLines lines {})[k]?).map Prod.snd =
      lines[k]?.map fun _ => settings {} (lines.take (k + 1))) ∧
    (∀ line o, setsOption line = true ↔
      NamesSetting line ∧ ∀ e, (handleLine line o).1 ≠ .refused e) ∧
    (∀ line o, setsOption line = true → Setting (wordsOf line) o (handleLine line o).2) ∧
    (∀ line o, setsOption line = false → (handleLine line o).2 = o) ∧
    ∀ positions : Finset ℕ, (∀ k ∈ positions, ∀ line ∈ lines[k]?, setsOption line = false) →
      handleLines (leaveOut positions 0 lines) {} =
        leaveOut positions 0 (handleLines lines {}) := by
  refine ⟨options_handleLines lines {}, setsOption_iff, fun line o h => setting_handleLine h o,
    fun line o h => handleLine_of_not_setsOption h o, ?_⟩
  intro positions h
  exact handleLines_leaveOut (fun k hk => h k (by rwa [Nat.zero_add] at hk)) {}

/-- A variable, a mode and an order are set. An incomplete sum, a question for the options, an
unknown mode and a blank line between them do not matter. -/
theorem handleLines_settings_mixed :
    ((handleLines [":var y", "x+", ":mode prog", ":options", ":order 2", ":mode fast", " "]
        {})[6]?).map Prod.snd = some ⟨"y", .program, 2⟩ ∧
      (∀ line ∈ ["x+", ":options", ":mode fast", " "], setsOption line = false) ∧
      handleLines [":var y", ":mode prog", ":order 2"] {} = leaveOut {1, 3, 5, 6} 0 (handleLines
        [":var y", "x+", ":mode prog", ":options", ":order 2", ":mode fast", " "] {}) := by
  have hnone : ∀ line ∈ ["x+", ":options", ":mode fast", " "], setsOption line = false := by
    decide +kernel
  obtain ⟨hsum, hshow, hmode, hblank⟩ : setsOption "x+" = false ∧ setsOption ":options" = false ∧
      setsOption ":mode fast" = false ∧ setsOption " " = false := by
    simpa using hnone
  obtain ⟨hlast, -, -, -, hleft⟩ := handleLines_settings
    [":var y", "x+", ":mode prog", ":options", ":order 2", ":mode fast", " "]
  refine ⟨?_, hnone, ?_⟩
  · rw [hlast 6]
    decide +kernel
  -- none of the lines that are left out sets anything
  · refine hleft {1, 3, 5, 6} fun k hk line hline => ?_
    simp only [Finset.mem_insert, Finset.mem_singleton] at hk
    rcases hk with rfl | rfl | rfl | rfl
    · cases hline; exact hsum
    · cases hline; exact hshow
    · cases hline; exact hmode
    · cases hline; exact hblank

end Session

end Fluxion
