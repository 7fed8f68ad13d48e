import Fluxion.Proofs.Formula.Conventions
import Fluxion.Proofs.Token.Pieces

/-!
# The symbols of a formula

A backslash makes a command of the letters behind it. Numbers, names and marks are cut as everywhere
else, and blanks only separate (`Formula.symbols`). A formula that is put together from pieces has
the symbols of the pieces (`Formula.Spells`) where a mark stands between any two that would run into
one another (`Formula.Separates`).
-/

namespace Fluxion.Formula

/-- The symbol that a command stands for. -/
def ofCommand (word : String) : Symbol :=
  if word = "frac" then .frac
  else if word = "cdot" then .cdot
  else if word = "left" then .left
  else if word = "right" then .right
  else
    match Func.ofName? word with
    | some f => .func f
    | none => .other

/-- The symbol that a mark stands for. -/
def ofMark : Punct → Symbol
  | .plus => .plus
  | .minus => .minus
  | .caret => .caret
  | .openParen => .openParen
  | .closeParen => .closeParen
  | .openCurly => .openBrace
  | .closeCurly => .closeBrace
  | _ => .other

/-- The symbols that a token of a class stands for. -/
def ofToken (kind : Kind) (text : String) : List Symbol :=
  match kind with
  | .blank => []
  | .punct mark => [ofMark mark]
  | .keyword _ | .name => [.name text]
  | .integer | .decimal => [.numeral text]
  | .symbol => [.other]

/-- The symbols of a formula. -/
def symbols : List Char → List Symbol
  | [] => []
  | c :: cs =>
    if c = '\\' then
      ofCommand (String.ofList (cs.takeWhile Char.isAlpha)) :: symbols (cs.dropWhile Char.isAlpha)
    else
      ofToken (Cut.ofChars c cs).kind (String.ofList (Cut.ofChars c cs).lexeme) ++
        symbols (Cut.ofChars c cs).rest
termination_by cs => cs.length
decreasing_by
  · exact Nat.lt_succ_of_le (Cut.length_dropWhile_le _ _)
  · exact Nat.lt_succ_of_le (Cut.ofChars_rest_length_le c cs)

variable {rest : List Char} {s p : String} {ps qs : List String} {w w' v : List Symbol}

@[simp] theorem symbols_nil : symbols [] = [] := by rw [symbols]

theorem symbols_cons {c : Char} (hc : c ≠ '\\') (cs : List Char) :
    symbols (c :: cs) = ofToken (Cut.ofChars c cs).kind (String.ofList (Cut.ofChars c cs).lexeme) ++
      symbols (Cut.ofChars c cs).rest := by
  rw [symbols, if_neg hc]

/-- A command ends where its letters do. -/
theorem symbols_command (hword : ∀ c ∈ s.toList, c.isAlpha = true) (hrest : Detached rest) :
    symbols ('\\' :: (s.toList ++ rest)) = ofCommand s :: symbols rest := by
  have hends : ∀ c ∈ rest.head?, c.isAlpha = false := by
    intro c hc
    have halnum := (hrest c hc).1
    rw [Char.isAlphanum, Bool.or_eq_false_iff] at halnum
    exact halnum.1
  have hcut := Cut.run_of_append (fun _ => .name) '\\' hword hends
  obtain ⟨htake, hdrop⟩ : (s.toList ++ rest).takeWhile Char.isAlpha = s.toList ∧
      (s.toList ++ rest).dropWhile Char.isAlpha = rest :=
    ⟨(List.cons.inj (congrArg Cut.lexeme hcut)).2, congrArg Cut.rest hcut⟩
  rw [symbols, if_pos rfl, htake, hdrop, String.ofList_toList]

/-- A mark is one symbol, whatever follows. -/
theorem symbols_mark (mark : Punct) (rest : List Char) :
    symbols (mark.char :: rest) = ofMark mark :: symbols rest := by
  rw [symbols_cons (by cases mark <;> decide), Cut.ofChars_mark]
  rfl

theorem symbols_blank (rest : List Char) : symbols (' ' :: rest) = symbols rest := by
  have hcut {c : Char} (hc : isBlankChar c = true) (cs : List Char) :
      symbols (c :: cs) = symbols (cs.dropWhile isBlankChar) := by
    have hne : c ≠ '\\' := by
      rintro rfl
      cases hc
    rw [symbols_cons hne, Cut.ofChars, if_pos hc]
    rfl
  rw [hcut rfl]
  cases rest with
  | nil => rfl
  | cons c cs =>
    by_cases hc : isBlankChar c = true
    · rw [List.dropWhile_cons_of_pos hc, hcut hc]
    · rw [List.dropWhile_cons_of_neg hc]

/-- A backslash starts no token of more than itself. -/
theorem ne_backslash {kind : Kind} {c : Char} {cs : List Char} (h : kind.Spells (c :: cs))
    (hkind : kind.IsSolid) : c ≠ '\\' := by
  rintro rfl
  have hcut : Cut.ofChars '\\' (cs ++ []) = ⟨kind, '\\' :: cs, []⟩ :=
    Cut.ofChars_of_spells h hkind (Kind.ends_nil kind)
  have hsymbol : Kind.symbol = kind := congrArg Cut.kind hcut
  subst hsymbol
  exact hkind

/-- A token is cut off whole where it ends for the lexer. -/
theorem symbols_token {kind : Kind} (h : kind.Spells s.toList) (hkind : kind.IsSolid)
    (hrest : kind.Ends rest) : symbols (s.toList ++ rest) = ofToken kind s ++ symbols rest := by
  obtain ⟨c, cs, hcs⟩ := List.exists_cons_of_ne_nil h.ne_nil
  rw [hcs] at h
  have hs : String.ofList (c :: cs) = s := by rw [← hcs, String.ofList_toList]
  rw [hcs, List.cons_append, symbols_cons (ne_backslash h hkind),
    Cut.ofChars_of_spells h hkind hrest, hs]

/-! ## Pieces -/

/-- The symbols of some pieces, wherever no word or number goes on behind them. -/
def Spells (ps : List String) (w : List Symbol) : Prop :=
  ∀ rest, Detached rest → symbols (ps.flatMap String.toList ++ rest) = w ++ symbols rest

/-- A piece with symbols of its own that no word or number runs into. -/
structure Separates (p : String) (w : List Symbol) : Prop where
  detached : ∀ rest, Detached (p.toList ++ rest)
  symbols_eq : ∀ rest, symbols (p.toList ++ rest) = w ++ symbols rest

theorem Spells.nil : Spells [] [] := fun _ _ => rfl

/-- A piece that separates can stand in front of anything. -/
theorem Spells.cons (hp : Separates p v) (h : Spells ps w) : Spells (p :: ps) (v ++ w) := by
  intro rest hrest
  rw [List.flatMap_cons, List.append_assoc, hp.symbols_eq, h rest hrest, List.append_assoc]

/-- Two rows of pieces do not run together with a piece between them that separates. -/
theorem Spells.join (h : Spells ps w) (hp : Separates p v) (h' : Spells qs w') :
    Spells (ps ++ p :: qs) (w ++ (v ++ w')) := by
  intro rest hrest
  rw [List.flatMap_append, List.flatMap_cons, List.append_assoc, List.append_assoc,
    h _ (hp.detached _), hp.symbols_eq, h' rest hrest, List.append_assoc, List.append_assoc]

/-- No word or number goes on with a backslash. -/
theorem detached_backslash (cs : List Char) : Detached ('\\' :: cs) := by
  rintro c ⟨⟩
  decide

theorem detached_mark (mark : Punct) (cs : List Char) : Detached (mark.char :: cs) := by
  obtain ⟨-, halnum, hpoint⟩ := mark.char_spec
  rintro c ⟨⟩
  exact ⟨halnum, hpoint⟩

theorem separates_mark (mark : Punct) (hp : p.toList = [mark.char]) :
    Separates p [ofMark mark] where
  detached rest := by
    rw [hp]
    exact detached_mark mark rest
  symbols_eq rest := by
    rw [hp]
    exact symbols_mark mark rest

theorem separates_left : Separates "\\left(" [.left, .openParen] where
  detached _ := detached_backslash _
  symbols_eq rest := by
    have hcommand := symbols_command (s := "left") (List.all_eq_true.1 rfl)
      (detached_mark .openParen rest)
    exact hcommand.trans (congrArg _ (symbols_mark .openParen rest))

theorem separates_right : Separates "\\right)" [.right, .closeParen] where
  detached _ := detached_backslash _
  symbols_eq rest := by
    have hcommand := symbols_command (s := "right") (List.all_eq_true.1 rfl)
      (detached_mark .closeParen rest)
    exact hcommand.trans (congrArg _ (symbols_mark .closeParen rest))

/-- The blanks around the command keep it from the factors. -/
theorem separates_cdot : Separates " \\cdot " [.cdot] where
  detached rest := by
    rintro c ⟨⟩
    decide
  symbols_eq rest := by
    have hblank : Detached (' ' :: rest) := by
      rintro c ⟨⟩
      decide
    have hcommand := symbols_command (s := "cdot") (List.all_eq_true.1 rfl) hblank
    exact (symbols_blank _).trans (hcommand.trans (congrArg _ (symbols_blank rest)))

/-- A command goes on until something that is no letter. -/
theorem spells_command (hword : ∀ c ∈ s.toList, c.isAlpha = true) :
    Spells ["\\" ++ s] [ofCommand s] := by
  intro rest hrest
  rw [List.flatMap_singleton, String.toList_append]
  exact symbols_command hword hrest

theorem spells_word (h : IsWord s.toList) : Spells [s] [.name s] := by
  intro rest hrest
  rw [List.flatMap_singleton]
  have hspells := Cut.wordKind_spells h
  unfold Cut.wordKind at hspells
  split at hspells
  · exact symbols_token hspells trivial hrest
  · exact symbols_token hspells trivial hrest

theorem spells_numeral (h : IsNumeral s) : Spells [s] [.numeral s] := by
  intro rest hrest
  rw [List.flatMap_singleton]
  rcases h with h | h
  · exact symbols_token h trivial hrest
  · exact symbols_token h trivial hrest

/-- A minus sign in front of a numeral is a symbol of its own. -/
theorem spells_negative (h : IsNumeral s) : Spells ["-" ++ s] [.minus, .numeral s] := by
  intro rest hrest
  have hnumeral := spells_numeral h rest hrest
  rw [List.flatMap_singleton] at hnumeral
  rw [List.flatMap_singleton, String.toList_append]
  exact (symbols_mark .minus _).trans (congrArg _ hnumeral)

end Fluxion.Formula
