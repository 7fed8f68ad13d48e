import Fluxion.Proofs.Grammar.Lookahead

/-!
# Other values for what is read

A function on the values of a parser changes neither what is read nor which failures are met. So it
can be taken through all ways of putting parsers together: if each part yields `f b` in place of
`b`, so does the whole (`Parser.mapped`). For parsers that are tied to themselves this is
`Parser.fix_mapped`.
-/

namespace Fluxion

variable {β γ δ : Type}

namespace Outcome

/-- The same outcome with another value. -/
def map (f : β → γ) (out : Outcome β) : Outcome γ := ⟨out.result.map f, out.rest, out.failures⟩

theorem map_after (f : β → γ) (fs : List Failure) (out : Outcome β) :
    (out.after fs).map f = (out.map f).after fs := rfl

end Outcome

namespace Parser

/-- Reads what `p` reads, and yields what `f` makes of its value. -/
def mapped (f : β → γ) (p : Parser β) : Parser γ := fun ts => (p ts).map f

variable {p : Parser β} {ts rest : List Token} {fs : List Failure}

/-- What is read is left alone, and `f` is applied to the value. -/
theorem mapped_of_ok {b : β} (f : β → γ) (h : p ts = ⟨.ok b, rest, fs⟩) :
    mapped f p ts = ⟨.ok (f b), rest, fs⟩ := by
  rw [mapped, h]
  rfl

/-- Without a value there is nothing to change. -/
theorem mapped_of_error {e : SyntaxError} (f : β → γ) (h : p ts = ⟨.error e, rest, fs⟩) :
    mapped f p ts = ⟨.error e, rest, fs⟩ := by
  rw [mapped, h]
  rfl

theorem mapped_pure (f : β → γ) (b : β) : mapped f (pure b) = pure (f b) := rfl

theorem mapped_refuse (f : β → γ) (expected : Expectation) :
    mapped f (refuse expected) = refuse expected := rfl

/-- Of two parsers one after another only the second yields the value. -/
theorem mapped_bind (f : γ → δ) (p : Parser β) (k : β → Parser γ) :
    mapped f (p >>= k) = p >>= fun b => mapped f (k b) := by
  funext ts
  cases h : p ts with
  | mk result rest fs =>
    cases result with
    | error e => rw [mapped_of_error f (bind_of_error h), bind_of_error h]
    | ok b => rw [mapped, bind_of_ok h, bind_of_ok h, Outcome.map_after, mapped]

theorem bind_mapped (f : β → γ) (p : Parser β) (k : γ → Parser δ) :
    (mapped f p >>= k) = p >>= fun b => k (f b) := by
  funext ts
  cases h : p ts with
  | mk result rest fs =>
    cases result with
    | error e => rw [bind_of_error h, bind_of_error (mapped_of_error f h)]
    | ok b => rw [bind_of_ok h, bind_of_ok (mapped_of_ok f h)]

theorem attempt_mapped (f : β → γ) (p : Parser β) :
    attempt (mapped f p) = mapped f (attempt p) := by
  funext ts
  cases h : p ts with
  | mk result rest fs =>
    cases result with
    | error e =>
      simp only [attempt, mapped, h]
      rfl
    | ok b =>
      simp only [attempt, mapped, h]
      rfl

theorem orElse_mapped (f : β → γ) (p q : Parser β) :
    orElse (mapped f p) (mapped f q) = mapped f (orElse p q) := by
  funext ts
  cases h : p ts with
  | mk result rest fs =>
    cases result with
    | ok b =>
      simp only [orElse, mapped, h]
      rfl
    | error e =>
      simp only [orElse, mapped, h]
      cases e <;> rfl

/-- A value that is left out stays left out. -/
theorem optional_mapped (f : β → γ) (p : Parser β) :
    Parser.optional (mapped f p) = mapped (Option.map f) (Parser.optional p) := by
  rw [optional_eq, optional_eq, bind_mapped, ← orElse_mapped, mapped_bind]
  rfl

/-- The values are changed one by one, by induction on the tokens that are left. -/
theorem many_mapped (f : β → γ) (p : Parser β) :
    many (mapped f p) = mapped (List.map f) (many p) := by
  funext ts
  induction hlen : ts.length using Nat.strongRecOn generalizing ts with
  | ind n ih =>
    subst hlen
    have hoptional := congrFun (optional_mapped f p) ts
    cases hout : Parser.optional p ts with
    | mk result rest fs =>
      cases result with
      | error e =>
        rw [mapped_of_error _ hout] at hoptional
        rw [many_of_error hoptional, mapped_of_error _ (many_of_error hout)]
      | ok found =>
        rw [mapped_of_ok _ hout] at hoptional
        cases found with
        | none => rw [many_of_none hoptional, mapped_of_ok _ (many_of_none hout), List.map_nil]
        | some b =>
          -- both repetitions go on under the same condition, as they have left the same tokens
          by_cases hlt : rest.length < ts.length
          · have hmore : (many (mapped f p) >>= fun cs => pure (f b :: cs)) rest =
                mapped (List.map f) (many p >>= fun bs => pure (b :: bs)) rest := by
              have hmany := ih rest.length hlt rest rfl
              rw [Grammar.bind_congr hmany fun _ _ _ => rfl, bind_mapped, mapped_bind]
              rfl
            rw [many_of_some hoptional hlt, mapped, many_of_some hout hlt, Outcome.map_after, hmore,
              mapped]
          · rw [many_of_some_last hoptional hlt, mapped_of_ok _ (many_of_some_last hout hlt)]
            rfl

/-- The values of separators are not used, so only the others are changed. -/
theorem separated_mapped (f : β → γ) (separator : Parser δ) (p : Parser β) :
    separated separator (mapped f p) = mapped (List.map f) (separated separator p) := by
  unfold separated
  rw [optional_mapped, bind_mapped, mapped_bind]
  congr 1
  funext found
  cases found with
  | none => rfl
  | some b =>
    show (many (attempt separator >>= fun _ => mapped f p) >>= fun cs => pure (f b :: cs)) =
      mapped (List.map f) (many (attempt separator >>= fun _ => p) >>= fun bs => pure (b :: bs))
    rw [← mapped_bind, many_mapped, bind_mapped, mapped_bind]
    rfl

/-- A limit on the length of a list does not depend on values. -/
theorem within_mapped (n : Nat) (f : β → γ) (p : Parser β) :
    within n (mapped f p) = mapped f (within n p) := by
  funext ts
  by_cases hlt : ts.length < n
  · rw [within_of_lt hlt, mapped, mapped, within_of_lt hlt]
  · simp only [within, mapped, if_neg hlt]
    rfl

/-- Where the body of one recursion is that of another but for the values, so are the recursions. -/
theorem fix_mapped {f : β → γ} {body : Parser β → Parser β} {body' : Parser γ → Parser γ}
    (h : ∀ q, body' (mapped f q) = mapped f (body q)) : fix body' = mapped f (fix body) := by
  funext ts
  induction hlen : ts.length using Nat.strongRecOn generalizing ts with
  | ind n ih =>
    subst hlen
    -- the recursions agree on the fewer tokens on which their bodies may call them
    have hfewer : within ts.length (fix body') = mapped f (within ts.length (fix body)) := by
      rw [← within_mapped]
      funext us
      by_cases hlt : us.length < ts.length
      · rw [within_of_lt hlt, within_of_lt hlt, ih us.length hlt us rfl]
      · simp only [within, if_neg hlt]
    rw [fix_apply, hfewer, h, mapped, mapped, fix_apply]

end Parser

/-- So is the whole text read, up to its end mark. -/
theorem Reading.complete_mapped (f : β → γ) (p : Parser β) (r : Reading) :
    (r.complete (p.mapped f)).1 = (r.complete p).1.map f := by
  have hend : Parser.attempt (toEnd (p.mapped f)) = (Parser.attempt (toEnd p)).mapped f := by
    rw [← Parser.attempt_mapped, toEnd, toEnd, Parser.bind_mapped, Parser.mapped_bind]
    simp only [Parser.mapped_bind, Parser.mapped_pure]
  unfold complete
  rw [hend]
  cases h : Parser.attempt (toEnd p) r.tokens with
  | mk result rest fs =>
    cases result with
    | ok b => rw [Parser.mapped_of_ok f h]; rfl
    | error e => rw [Parser.mapped_of_error f h]; cases e <;> rfl

end Fluxion
