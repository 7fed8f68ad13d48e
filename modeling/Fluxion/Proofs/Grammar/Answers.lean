import Fluxion.Proofs.Grammar.Correspondence
import Fluxion.Proofs.Grammar.ErrorPosition

/-!
# The answers to texts that are read alike

If the tokens of two texts correspond, and of any two places in one text and the places they stand
for in the other the same comes first, then both texts are read as the same tree or fail for the
same reason at the same place (`Entry.parse_answers`).
-/

namespace Fluxion

open Fluxion.Parser Fluxion.Grammar

/-- Of failures that are met in the same order at places in the same order, the same is the
furthest. -/
theorem Failure.furthest?_rel {F : Failure → Failure → Prop} {stop stop' : Nat}
    {fs fs' : List Failure} (hfs : List.Forall₂ F fs fs')
    (hpos : ∀ f f' g g', F f f' → F g g' →
      (g.position stop ≤ f.position stop ↔ g'.position stop' ≤ f'.position stop')) :
    Option.Rel F (furthest? stop fs) (furthest? stop' fs') := by
  induction hfs with
  | nil => exact .none
  | @cons f f' fs fs' hf _ ih =>
    rw [furthest?, furthest?]
    -- the comparison with the furthest of the later ones has the same outcome on both sides
    cases hg : furthest? stop fs with
    | none =>
      cases hg' : furthest? stop' fs' with
      | none => exact .some hf
      | some g' =>
        rw [hg, hg'] at ih
        cases ih
    | some g =>
      cases hg' : furthest? stop' fs' with
      | none =>
        rw [hg, hg'] at ih
        cases ih
      | some g' =>
        rw [hg, hg'] at ih
        cases ih with
        | some hrel =>
          have hle := hpos f f' g g' hf hrel
          by_cases h : g.position stop ≤ f.position stop
          · simp only [if_pos h, if_pos (hle.1 h)]
            exact .some hf
          · simp only [if_neg h, if_neg (mt hle.2 h)]
            exact .some hrel

namespace Correspondence

/-- Two runs to the end with the same answer. Of runs that went well nothing else matters. -/
inductive Answers (c : Correspondence) {β : Type} : Outcome β → Outcome β → Prop
  | ok {b : β} {rest rest' : List Token} {fs fs' : List Failure} :
      Answers c ⟨.ok b, rest, fs⟩ ⟨.ok b, rest', fs'⟩
  | error {e e' : SyntaxError} {rest rest' : List Token} {fs fs' : List Failure} :
      c.Errors e e' → List.Forall₂ c.Failures fs fs' →
      Answers c ⟨.error e, rest, fs⟩ ⟨.error e', rest', fs'⟩

namespace Answers

variable {c : Correspondence} {β : Type} {p p' : Parser β} {out out' : Outcome β}
variable {ts ts' : List Token} {fs fs' : List Failure}

/-- Related failures can be put before related answers. -/
theorem after (h : c.Answers out out') (hfs : List.Forall₂ c.Failures fs fs') :
    c.Answers (out.after fs) (out'.after fs') := by
  cases h with
  | ok => exact .ok
  | error he hfs' => exact .error he (List.rel_append hfs' hfs)

/-- Where a failure leaves the tokens does not matter to the answer. -/
theorem attempt (h : c.Answers (p ts) (p' ts')) :
    c.Answers (attempt p ts) (attempt p' ts') := by
  cases hout : p ts with
  | mk result rest fs =>
    cases hout' : p' ts' with
    | mk result' rest' fs' =>
      rw [hout, hout'] at h
      cases h with
      | ok =>
        simp only [Parser.attempt, hout, hout']
        exact .ok
      | error he hfs =>
        simp only [Parser.attempt, hout, hout']
        exact .error he hfs

/-- The end mark may be read, since nothing is read after it. -/
theorem dollar (b : β) (h : c.Lists ts ts') :
    c.Answers ((Parser.attempt (punct .dollar) >>= fun _ => pure b) ts)
      ((Parser.attempt (punct .dollar) >>= fun _ => pure b) ts') := by
  rcases h.cases with ⟨rfl, rfl⟩ | ⟨o, us, o', us', rfl, rfl, hkind, -⟩
  · exact .error (.unexpected ⟨rfl, _, _, h, rfl, rfl⟩) (.cons ⟨rfl, _, _, h, rfl, rfl⟩ .nil)
  · by_cases hdollar : o.kind = .punct .dollar
    · have hread : ∀ o : Token, ∀ us, o.kind = .punct .dollar →
          Parser.attempt (punct .dollar) (o :: us) = ⟨.ok o, us, []⟩ := by
        intro o us ho
        simp only [Parser.attempt, punct, ofKind, satisfy, if_pos ho]
      rw [bind_of_ok (hread o us hdollar), bind_of_ok (hread o' us' (hkind ▸ hdollar))]
      exact .ok
    · have hskip : ∀ o : Token, ∀ us, o.kind ≠ .punct .dollar →
          Parser.attempt (punct .dollar) (o :: us) =
            failing (.punct .dollar) (some o) (o :: us) := by
        intro o us ho
        simp only [Parser.attempt, punct, ofKind, satisfy, if_neg ho, failing]
      rw [bind_of_error (hskip o us hdollar), bind_of_error (hskip o' us' (hkind ▸ hdollar))]
      exact .error (.unexpected ⟨rfl, _, _, h, rfl, rfl⟩) (.cons ⟨rfl, _, _, h, rfl, rfl⟩ .nil)

end Answers

end Correspondence

namespace Entry

variable {α : Type} [Literal α] {entry : Entry} {c : Correspondence} {text text' : String}

/-- A text is read up to the end mark, and what stands behind that does not change the answer. -/
theorem whole_answers (entry : Entry) {ts ts' : List Token} (h : c.Lists ts ts') :
    c.Answers ((entry.whole : Parser (Tree α)) ts) (entry.whole ts') := by
  refine Correspondence.Answers.attempt ?_
  have hrun := related_production (α := α) entry h
  cases hout : (entry.production : Parser (Tree α)) ts with
  | mk result rest fs =>
    cases hout' : (entry.production : Parser (Tree α)) ts' with
    | mk result' rest' fs' =>
      rw [hout, hout'] at hrun
      unfold Reading.toEnd
      cases hrun with
      | ok ht hrest hfs =>
        rw [bind_of_ok hout, bind_of_ok hout', ht]
        exact (Correspondence.Answers.dollar _ hrest).after hfs
      | error he hfs =>
        rw [bind_of_error hout, bind_of_error hout']
        exact .error he hfs

theorem parse_of_tree {t : Tree α}
    (h : ((entry.whole : Parser (Tree α)) (Token.significant text)).result = .ok t) :
    entry.parse text = .ok t := by
  unfold whole at h
  unfold parse Reading.complete Reading.start
  simp only [h]

/-- The error of a name that is too long is reported where the name is. -/
theorem parse_of_nameTooLong {name : Token}
    (h : ((entry.whole : Parser (Tree α)) (Token.significant text)).result =
      .error (.nameTooLong name)) :
    entry.parse (α := α) text = .error ⟨.nameTooLong name, name.span⟩ := by
  unfold whole at h
  unfold parse Reading.complete Reading.start
  simp only [h]
  rfl

/-- Texts whose tokens correspond, and whose places are in the same order, have the same answer. -/
theorem parse_answers (entry : Entry)
    (h : c.Lists (Token.significant text) (Token.significant text'))
    (hpos : ∀ f f' g g', c.Failures f f' → c.Failures g g' →
      (g.position text.utf8ByteSize ≤ f.position text.utf8ByteSize ↔
        g'.position text'.utf8ByteSize ≤ f'.position text'.utf8ByteSize)) :
    (∃ t : Tree α, entry.parse text = .ok t ∧ entry.parse text' = .ok t) ∨
      ∃ e e', c.Errors e e' ∧
        entry.parse (α := α) text = .error ⟨e, e.span text.utf8ByteSize⟩ ∧
        entry.parse (α := α) text' = .error ⟨e', e'.span text'.utf8ByteSize⟩ := by
  have hanswers := whole_answers (α := α) entry h
  cases hout : (entry.whole : Parser (Tree α)) (Token.significant text) with
  | mk result rest fs =>
    cases hout' : (entry.whole : Parser (Tree α)) (Token.significant text') with
    | mk result' rest' fs' =>
      rw [hout, hout'] at hanswers
      cases hanswers with
      | @ok t => exact Or.inl ⟨t, parse_of_tree (by rw [hout]), parse_of_tree (by rw [hout'])⟩
      | error he hfs =>
        refine Or.inr ?_
        cases he with
        | @nameTooLong o o' ho hlong =>
          exact ⟨_, _, .nameTooLong ho hlong, parse_of_nameTooLong (by rw [hout]),
            parse_of_nameTooLong (by rw [hout'])⟩
        | @unexpected f f' hf =>
          have hparse : entry.parse (α := α) text = _ := parse_of_unexpected (by rw [hout])
          have hparse' : entry.parse (α := α) text' = _ := parse_of_unexpected (by rw [hout'])
          rw [hout] at hparse
          rw [hout'] at hparse'
          -- the error that is reported is the furthest one, and these are related by `hpos`
          have hfurthest : c.Failures ((Failure.furthest? text.utf8ByteSize fs).getD f)
              ((Failure.furthest? text'.utf8ByteSize fs').getD f') := by
            have hrel := Failure.furthest?_rel hfs hpos
            generalize Failure.furthest? text.utf8ByteSize fs = g at hrel ⊢
            generalize Failure.furthest? text'.utf8ByteSize fs' = g' at hrel ⊢
            cases hrel with
            | none => exact hf
            | some hg => exact hg
          exact ⟨_, _, .unexpected hfurthest, hparse, hparse'⟩

end Entry

end Fluxion
