import Fluxion.Proofs.Grammar.Answers

/-!
# Where reading ends for good

No production reads on behind the end mark or behind a name that is too long, and so nothing that
comes behind the first of them matters. Of the end mark this means that a text may go on in any way
after it (`Entry.parse_of_same_beginning`). Of a name that is too long it means that nothing makes
good for it: the text is refused, for this name or for something at or before it, and no other name
is ever reported as too long (`Entry.parse_long_name`).
-/

namespace Fluxion

open Fluxion.Parser Fluxion.Grammar

namespace Correspondence

variable {w tail tail' : List Token}

/-- The ends of one list, before two lists that begin with the same barrier or are both empty. -/
def upTo (w : List Token) {tail tail' : List Token} (hhead : tail.head? = tail'.head?)
    (hbarrier : ∀ o ∈ tail.head?, o.IsBarrier) : Correspondence where
  Lists ts ts' := ∃ mid, mid <:+ w ∧ ts = mid ++ tail ∧ ts' = mid ++ tail'
  head := by
    rintro _ _ ⟨mid, -, rfl, rfl⟩
    rw [List.head?_append, List.head?_append, hhead]
  tail := by
    rintro o o' ts ts' ⟨mid, hmid, h, h'⟩ hread
    cases mid with
    | nil =>
      -- what is next is the barrier, behind which nothing is read
      rw [List.nil_append] at h
      exact absurd (hbarrier o (by rw [← h]; rfl)) hread
    | cons o₁ mid =>
      obtain ⟨-, rfl⟩ := List.cons.inj h
      obtain ⟨-, rfl⟩ := List.cons.inj h'
      exact ⟨mid, (List.suffix_cons _ _).trans hmid, rfl, rfl⟩
  shorter := by
    rintro _ _ _ _ ⟨mid, -, rfl, rfl⟩ ⟨mid', -, rfl, rfl⟩
    simp only [List.length_append, Nat.add_lt_add_iff_right]
  signed := by
    rintro o o' u u' ts ts' ⟨mid, -, h, h'⟩ hminus -
    rcases mid with - | ⟨o₁, - | ⟨u₁, mid⟩⟩
    · -- a minus sign is no barrier
      rw [List.nil_append] at h
      have hbar := hbarrier o (by rw [← h]; rfl)
      exact absurd hbar (Token.not_isBarrier_of_kind (by simp [hminus]) (by simp [hminus]))
    · cases h
      cases h'
      cases hhead
      rfl
    · cases h
      cases h'
      rfl

section UpTo

variable {hhead : tail.head? = tail'.head?} {hbarrier : ∀ o ∈ tail.head?, o.IsBarrier}
variable {ts ts' : List Token} {o o' : Token} {f f' : Failure}

/-- What comes next is the same in both, and no further than the barrier. -/
theorem head?_of_upTo (h : (upTo w hhead hbarrier).Lists ts ts') :
    ts'.head? = ts.head? ∧ (∀ o ∈ ts.head?, o ∈ w ∨ o ∈ tail.head?) ∧ (ts = [] → tail = []) := by
  obtain ⟨mid, hmid, rfl, rfl⟩ := h
  refine ⟨by rw [List.head?_append, List.head?_append, hhead], fun o ho => ?_,
    fun hnil => (List.append_eq_nil_iff.1 hnil).2⟩
  cases mid with
  | nil => exact Or.inr ho
  | cons o₁ mid =>
    cases ho
    exact Or.inl (hmid.subset List.mem_cons_self)

/-- Tokens stand only for themselves, up to the first that nothing reads on behind. -/
theorem eq_of_upTo_tokens (h : (upTo w hhead hbarrier).Tokens o o') :
    o' = o ∧ (o ∈ w ∨ o ∈ tail.head?) := by
  obtain ⟨us, us', h⟩ := h
  obtain ⟨heq, hmem, -⟩ := head?_of_upTo h
  exact ⟨Option.some.inj heq, hmem o rfl⟩

/-- Failures stand only for themselves, and are met no further than that. -/
theorem eq_of_upTo_failures (h : (upTo w hhead hbarrier).Failures f f') :
    f' = f ∧ (∀ o ∈ f.found, o ∈ w ∨ o ∈ tail.head?) ∧ (f.found = none → tail = []) := by
  obtain ⟨hexpected, ts, ts', hlists, hfound, hfound'⟩ := h
  obtain ⟨heq, hmem, hnil⟩ := head?_of_upTo hlists
  rw [← hfound, ← hfound'] at heq
  refine ⟨?_, hfound ▸ hmem, fun hnone => hnil (List.head?_eq_none_iff.1 (hfound ▸ hnone))⟩
  cases f
  cases f'
  cases hexpected
  cases heq
  rfl

/-- With a barrier ahead, a failure is where it is wherever the text ends. -/
theorem span_of_upTo (h : (upTo w hhead hbarrier).Failures f f') (htail : tail ≠ [])
    (stop stop' : Nat) : f'.span stop' = f.span stop := by
  obtain ⟨rfl, -, hnone⟩ := eq_of_upTo_failures h
  obtain ⟨o, ho⟩ := Option.ne_none_iff_exists'.1 (mt hnone htail)
  rw [Failure.span, Failure.span, ho]

end UpTo

end Correspondence

namespace Entry

open Correspondence

variable {α : Type} [Literal α] {entry : Entry} {text text' : String} {w : List Token}

/-- What comes behind a barrier does not matter. -/
theorem parse_of_same_barrier {o : Token} {ts ts' : List Token} (ho : o.IsBarrier)
    (h : Token.significant text = w ++ o :: ts) (h' : Token.significant text' = w ++ o :: ts') :
    entry.parse (α := α) text = entry.parse text' := by
  have hbarrier : ∀ u ∈ (o :: ts).head?, u.IsBarrier := by
    rintro u ⟨⟩
    exact ho
  have hhead : (o :: ts).head? = (o :: ts').head? := rfl
  -- the two lists correspond up to the barrier, and no production reads past it
  have hlists : (upTo w hhead hbarrier).Lists (Token.significant text) (Token.significant text') :=
    ⟨w, List.suffix_refl w, h, h'⟩
  -- a failure in front of the barrier has the same place in both texts
  have hspan : ∀ f f', (upTo w hhead hbarrier).Failures f f' →
      f'.span text'.utf8ByteSize = f.span text.utf8ByteSize :=
    fun f f' hf => span_of_upTo hf (List.cons_ne_nil o ts) _ _
  have hpos : ∀ f f' g g', (upTo w hhead hbarrier).Failures f f' →
      (upTo w hhead hbarrier).Failures g g' →
      (g.position text.utf8ByteSize ≤ f.position text.utf8ByteSize ↔
        g'.position text'.utf8ByteSize ≤ f'.position text'.utf8ByteSize) := by
    intro f f' g g' hf hg
    rw [Failure.position, Failure.position, Failure.position, Failure.position, hspan f f' hf,
      hspan g g' hg]
  rcases parse_answers (α := α) entry hlists hpos with ⟨t, ht, ht'⟩ | ⟨e, e', he, hp, hp'⟩
  · rw [ht, ht']
  · rw [hp, hp']
    cases he with
    | nameTooLong hname =>
      obtain ⟨rfl, -⟩ := eq_of_upTo_tokens hname
      rfl
    | unexpected hf =>
      obtain ⟨rfl, -⟩ := eq_of_upTo_failures hf
      rw [SyntaxError.span, SyntaxError.span, hspan _ _ hf]

end Entry

/-! ## The end mark -/

/-- The tokens of a text with an end mark in it are those before the mark, the mark, and others. -/
theorem Token.significant_append_dollar (p q : String) :
    significant (p ++ "$" ++ q) = significant p ++ ⟨.punct .dollar, "$", p.utf8ByteSize⟩ ::
      significantFrom (p.utf8ByteSize + 1) q.toList := by
  have htext : (p ++ "$" ++ q).toList = p.toList ++ Punct.dollar.char :: q.toList := by
    simp [String.toList_append, Punct.char]
  rw [significant_eq, htext, significantFrom_append_mark, ← utf8ByteSize_eq_utf8Len, Nat.zero_add]
  rfl

namespace Entry

variable {α : Type} [Literal α] {entry : Entry}

/-- What comes behind an end mark does not matter. -/
theorem parse_append_dollar (entry : Entry) (p q q' : String) :
    entry.parse (α := α) (p ++ "$" ++ q) = entry.parse (p ++ "$" ++ q') :=
  parse_of_same_barrier (Or.inl rfl) (Token.significant_append_dollar p q)
    (Token.significant_append_dollar p q')

/-- A text with an end mark is cut at the first. -/
theorem exists_append_dollar {s : String} (h : '$' ∈ s.toList) :
    ∃ q, s = String.ofList (s.toList.takeWhile (· != '$')) ++ "$" ++ q := by
  have hsplit := List.takeWhile_append_dropWhile (p := (· != '$')) (l := s.toList)
  have hhead := List.head?_dropWhile_not (· != '$') s.toList
  -- the text is cut where the first `$` stands, which `h` says there is
  cases hdrop : s.toList.dropWhile (· != '$') with
  | nil =>
    rw [hdrop, List.append_nil] at hsplit
    rw [← hsplit] at h
    have := List.all_eq_true.1 List.all_takeWhile '$' h
    simp at this
  | cons d q =>
    rw [hdrop] at hhead hsplit
    have hd : d = '$' := by simpa using hhead
    have htext : s.toList = s.toList.takeWhile (· != '$') ++ '$' :: q := by
      subst hd
      exact hsplit.symm
    refine ⟨String.ofList q, ?_⟩
    simp only [← String.toList_inj, String.toList_append, String.toList_ofList, List.append_assoc]
    exact htext

/-- Texts that are the same up to their first end mark have the same answer, so that it does not
matter whether a text has an end mark added to it, or has one and goes on behind it. -/
theorem parse_of_same_beginning (entry : Entry) :
    (∀ s s' : String, '$' ∈ s.toList → '$' ∈ s'.toList →
      s.toList.takeWhile (· != '$') = s'.toList.takeWhile (· != '$') →
      entry.parse (α := α) s = entry.parse s') ∧
    ∀ p q : String, '$' ∉ p.toList →
      entry.parse (α := α) (withSentinel p) = entry.parse (p ++ "$") ∧
      entry.parse (α := α) (withSentinel (p ++ "$" ++ q)) = entry.parse (p ++ "$") := by
  refine ⟨fun s s' hs hs' hsame => ?_, fun p q hp => ?_⟩
  · obtain ⟨q, hq⟩ := exists_append_dollar hs
    obtain ⟨q', hq'⟩ := exists_append_dollar hs'
    rw [hq, hq', hsame]
    exact parse_append_dollar entry _ _ _
  -- the sentinel is one more `$`, behind everything that is read
  · have hnone : entry.parse (α := α) (p ++ "$") = entry.parse (p ++ "$" ++ "") := by
      rw [String.append_empty]
    have hassoc : p ++ "$" ++ q ++ "$" = p ++ "$" ++ (q ++ "$") := String.append_assoc
    refine ⟨by rw [withSentinel_of_not_mem hp], ?_⟩
    rw [hnone, withSentinel]
    split
    · exact parse_append_dollar entry p q ""
    · rw [hassoc]
      exact parse_append_dollar entry p (q ++ "$") ""

/-- An expression that breaks off at its end mark is refused there, and a name behind the mark that
is too long goes unnoticed. -/
theorem parse_of_same_beginning_open_sum :
    ('$' ∈ "x*(y+$".toList ∧ '$' ∈ "x*(y+$ aVeryLongIdentifier)$".toList ∧
      "x*(y+$".toList.takeWhile (· != '$') =
        "x*(y+$ aVeryLongIdentifier)$".toList.takeWhile (· != '$')) ∧
    expression.parse (α := Float) "x*(y+$" = expression.parse "x*(y+$ aVeryLongIdentifier)$" ∧
    '$' ∉ "x*(y+".toList ∧
    expression.parse (α := Float) (withSentinel "x*(y+") = expression.parse "x*(y+$" :=
  have hmarked : '$' ∈ "x*(y+$".toList := by decide
  have hlonger : '$' ∈ "x*(y+$ aVeryLongIdentifier)$".toList := by decide
  have hnone : '$' ∉ "x*(y+".toList := by decide
  have hsame : "x*(y+$".toList.takeWhile (· != '$') =
      "x*(y+$ aVeryLongIdentifier)$".toList.takeWhile (· != '$') := by decide
  ⟨⟨hmarked, hlonger, hsame⟩,
    (parse_of_same_beginning expression).1 _ _ hmarked hlonger hsame,
    hnone, ((parse_of_same_beginning expression).2 _ "" hnone).1⟩

end Entry

/-! ## Names that are too long -/

namespace Token

instance : DecidablePred IsLongName :=
  fun o => inferInstanceAs (Decidable (o.kind = .name ∧ maxNameBytes < o.text.utf8ByteSize))

/-- The first name in a text that is too long. -/
def firstLongName? (text : String) : Option Token := (lex text).find? fun o => decide o.IsLongName

theorem firstLongName?_eq (text : String) :
    firstLongName? text = (significant text).find? fun o => decide o.IsLongName := by
  rw [firstLongName?, significant, List.find?_filter]
  refine congrArg (fun p => List.find? p (lex text)) (funext fun o => ?_)
  by_cases hlong : o.IsLongName
  · simp [hlong, isBlank, hlong.1]
  · simp [hlong]

/-- The first long name is the one that has none before it. -/
theorem firstLongName?_of_split {text : String} {w ts : List Token} {name : Token}
    (h : significant text = w ++ name :: ts) (hw : ∀ o ∈ w, ¬ o.IsLongName)
    (hname : name.IsLongName) : firstLongName? text = some name := by
  rw [firstLongName?_eq, h, List.find?_append, List.find?_eq_none.2 (by simpa using hw),
    Option.none_or, List.find?_cons_of_pos (by simpa using hname)]

/-- A name that is too long and stands before the end mark has nothing before it that is too long,
nor an end mark. -/
theorem split_of_firstLongName? {text : String} {name : Token}
    (h : firstLongName? text = some name) (hbefore : name ∈ beforeEnd text) :
    ∃ w ts, significant text = w ++ name :: ts ∧ name.IsLongName ∧ (∀ o ∈ w, ¬ o.IsLongName) ∧
      NoDollar w := by
  rw [firstLongName?_eq, List.find?_eq_some_iff_append] at h
  obtain ⟨hlong, w, ts, hsplit, hw⟩ := h
  have hlong : name.IsLongName := by simpa using hlong
  have hw : ∀ o ∈ w, ¬ o.IsLongName := by simpa using hw
  refine ⟨w, ts, hsplit, hlong, hw, fun o ho hdollar => ?_⟩
  obtain ⟨w₁, w₂, rfl⟩ := List.append_of_mem ho
  have hmem : name ∈ w₁ := by
    rw [beforeEnd, hsplit, List.append_assoc, List.takeWhile_append] at hbefore
    split at hbefore
    · rw [List.cons_append, List.takeWhile_cons_of_neg (by simp [hdollar]), List.append_nil]
        at hbefore
      exact hbefore
    · exact List.takeWhile_subset _ hbefore
  exact hw name (List.mem_append_left _ hmem) hlong

/-- If there is a name before the end mark that is too long, the first one is before the end mark
too. -/
theorem exists_firstLongName? {text : String} {o : Token} (h : o ∈ beforeEnd text)
    (hlong : o.IsLongName) :
    ∃ first, firstLongName? text = some first ∧ first ∈ beforeEnd text ∧ first.start ≤ o.start := by
  have hsplit : beforeEnd text ++ _ = significant text := List.takeWhile_append_dropWhile
  have hfound : ((beforeEnd text).find? fun o => decide o.IsLongName).isSome :=
    List.find?_isSome.2 ⟨o, h, by simpa using hlong⟩
  obtain ⟨first, hfirst⟩ := Option.isSome_iff_exists.1 hfound
  obtain ⟨-, w, ts, hw, hbefore⟩ := List.find?_eq_some_iff_append.1 hfirst
  refine ⟨first, ?_, List.mem_of_find?_eq_some hfirst, ?_⟩
  · rw [firstLongName?_eq, ← hsplit, List.find?_append, hfirst]
    rfl
  · rw [hw, List.append_assoc, List.cons_append] at hsplit
    rw [hw] at h
    rcases List.mem_append.1 h with hmem | hmem
    · exact absurd hlong (by simpa using hbefore o hmem)
    · rcases List.mem_cons.1 hmem with rfl | hmem
      · exact Nat.le_refl _
      · exact ((start_lt_of_significant hsplit.symm).1 o (List.mem_append_left _ hmem)).le

end Token

namespace Entry

open Correspondence

variable {α : Type} [Literal α] {entry : Entry} {text : String} {w tail : List Token}

/-- An error is at no token behind a barrier. -/
theorem error_before_barrier {e : SourceError} (hbarrier : ∀ o ∈ tail.head?, o.IsBarrier)
    (h : Token.significant text = w ++ tail) (herror : entry.parse (α := α) text = .error e) :
    (∃ name, e = ⟨.nameTooLong name, name.span⟩ ∧ name.IsLongName ∧
        (name ∈ w ∨ name ∈ tail.head?)) ∨
      ∃ f, e = ⟨.unexpected f, f.span text.utf8ByteSize⟩ ∧
        (∀ o ∈ f.found, o ∈ w ∨ o ∈ tail.head?) ∧ (f.found = none → tail = []) := by
  have hlists : (upTo w rfl hbarrier).Lists (Token.significant text) (Token.significant text) :=
    ⟨w, List.suffix_refl w, h, h⟩
  have hpos : ∀ f f' g g', (upTo w rfl hbarrier).Failures f f' →
      (upTo w rfl hbarrier).Failures g g' →
      (g.position text.utf8ByteSize ≤ f.position text.utf8ByteSize ↔
        g'.position text.utf8ByteSize ≤ f'.position text.utf8ByteSize) := by
    intro f f' g g' hf hg
    rw [(eq_of_upTo_failures hf).1, (eq_of_upTo_failures hg).1]
  rcases parse_answers (α := α) entry hlists hpos with ⟨t, ht, -⟩ | ⟨e', _, he, hp, -⟩
  · rw [herror] at ht
    cases ht
  · rw [herror] at hp
    cases hp
    cases he with
    | nameTooLong hname hlong => exact Or.inl ⟨_, rfl, hlong, (eq_of_upTo_tokens hname).2⟩
    | unexpected hf => exact Or.inr ⟨_, rfl, (eq_of_upTo_failures hf).2⟩

/-- Behind a name that is too long no end mark is come to. -/
theorem parse_ne_ok {name : Token} {ts : List Token} (hlong : name.IsLongName) (hw : NoDollar w)
    (h : Token.significant text = w ++ name :: ts) (t : Tree α) : entry.parse text ≠ .ok t := by
  intro hok
  obtain ⟨o, rest, ⟨fs, hyields⟩, ho⟩ := parse_eq_ok.1 hok
  have hbarrier : ∀ u ∈ (name :: ts).head?, u.IsBarrier := by
    rintro u ⟨⟩
    exact Or.inr hlong
  have hlists : (upTo w rfl hbarrier).Lists (Token.significant text) (Token.significant text) :=
    ⟨w, List.suffix_refl w, h, h⟩
  have hrun := related_production (α := α) entry hlists
  rw [hyields] at hrun
  cases hrun with
  | ok _ hrest _ =>
    rcases (head?_of_upTo hrest).2.1 o rfl with hmem | hmem
    · exact hw o hmem ho
    · cases hmem
      rw [hlong.1] at ho
      cases ho

/-- What is split off from a text so that its tokens before are no barriers starts with a barrier.
-/
theorem exists_split_barrier (ts : List Token) : ∃ w tail, ts = w ++ tail ∧
    (∀ o ∈ w, ¬ o.IsBarrier) ∧ ∀ o ∈ tail.head?, o.IsBarrier := by
  induction ts with
  | nil => exact ⟨[], [], rfl, by simp, by simp⟩
  | cons o ts ih =>
    by_cases ho : o.IsBarrier
    · exact ⟨[], o :: ts, rfl, by simp, by simpa using ho⟩
    · obtain ⟨w, tail, rfl, hw, htail⟩ := ih
      exact ⟨o :: w, tail, rfl, by simpa [ho] using hw, htail⟩

/-- Every error is at a token up to the first barrier, so that a name is reported only if it is the
first one that is too long. -/
theorem firstLongName?_of_parse_eq_error {e : SourceError} {name : Token}
    (herror : entry.parse (α := α) text = .error e) (hname : e.cause = .nameTooLong name) :
    Token.firstLongName? text = some name ∧ e.span = name.span := by
  obtain ⟨w, tail, hsplit, hw, hbarrier⟩ := exists_split_barrier (Token.significant text)
  rcases error_before_barrier hbarrier hsplit herror with ⟨_, rfl, hlong, hmem⟩ | ⟨f, rfl, -⟩
  · cases hname
    rcases hmem with hmem | hmem
    · exact absurd (Or.inr hlong) (hw _ hmem)
    · obtain ⟨ts, rfl⟩ := List.head?_eq_some_iff.1 hmem
      exact ⟨Token.firstLongName?_of_split hsplit (fun o ho h => hw o ho (Or.inr h)) hlong, rfl⟩
  · cases hname

/-- With a name that is too long before the end mark, the error is that name or comes no later. -/
theorem exists_error_of_firstLongName? {name : Token}
    (hfirst : Token.firstLongName? text = some name) (hbefore : name ∈ Token.beforeEnd text) :
    ∃ e, entry.parse (α := α) text = .error e ∧ (e = ⟨.nameTooLong name, name.span⟩ ∨
      e.cause.isFatal = false ∧ e.span.start ≤ name.start) := by
  obtain ⟨w, ts, hsplit, hlong, hw, hdollar⟩ := Token.split_of_firstLongName? hfirst hbefore
  have hbarrier : ∀ o ∈ (name :: ts).head?, o.IsBarrier := by
    rintro o ⟨⟩
    exact Or.inr hlong
  cases hparse : entry.parse (α := α) text with
  | ok t => exact absurd hparse (parse_ne_ok hlong hdollar hsplit t)
  | error e =>
    refine ⟨e, rfl, ?_⟩
    rcases error_before_barrier hbarrier hsplit hparse with
      ⟨name', rfl, hlong', hmem⟩ | ⟨f, rfl, hmem, hnone⟩
    · rcases hmem with hmem | hmem
      · exact absurd hlong' (hw _ hmem)
      · cases hmem
        exact Or.inl rfl
    · -- the name is ahead, so no failure is at the end of the text
      refine Or.inr ⟨rfl, ?_⟩
      obtain ⟨o, ho⟩ := Option.ne_none_iff_exists'.1 (mt hnone (List.cons_ne_nil name ts))
      change f.position text.utf8ByteSize ≤ name.start
      rw [Failure.position_of_found _ ho]
      rcases hmem o ho with hmem | hmem
      · obtain ⟨w₁, w₂, rfl⟩ := List.append_of_mem hmem
        rw [List.append_assoc, List.cons_append] at hsplit
        exact ((Token.start_lt_of_significant hsplit).1 name (by simp)).le
      · cases hmem
        exact Nat.le_refl _

/-- No production passes over a name that is too long. The error for it is the only one that ends
reading at once, it is for the first such name, and a text with one before its end mark is refused
for it or for something no further on. -/
theorem parse_long_name (entry : Entry) (text : String) :
    (∀ e, entry.parse (α := α) text = .error e →
      (e.cause.isFatal = true ↔ ∃ name, e.cause = .nameTooLong name) ∧
      ∀ name, e.cause = .nameTooLong name →
        Token.firstLongName? text = some name ∧ e.span = name.span) ∧
    ∀ o ∈ Token.beforeEnd text, o.IsLongName → ∃ first e,
      Token.firstLongName? text = some first ∧ first.start ≤ o.start ∧
      entry.parse (α := α) text = .error e ∧
      (e = ⟨.nameTooLong first, first.span⟩ ∨
        e.cause.isFatal = false ∧ e.span.start ≤ first.start) := by
  refine ⟨fun e herror => ⟨?_, fun name => firstLongName?_of_parse_eq_error herror⟩, ?_⟩
  · cases e.cause <;> simp [SyntaxError.isFatal]
  · intro o ho hlong
    obtain ⟨first, hfirst, hbefore, hle⟩ := Token.exists_firstLongName? ho hlong
    obtain ⟨e, herror, hwhere⟩ := exists_error_of_firstLongName? (α := α) hfirst hbefore
    exact ⟨first, e, hfirst, hle, herror, hwhere⟩

/-- In the text `f(1,aVeryLongIdentifier)$` the name at byte 4 has 19 bytes. -/
theorem parse_long_name_argument :
    (⟨.name, "aVeryLongIdentifier", 4⟩ ∈ Token.beforeEnd "f(1,aVeryLongIdentifier)$" ∧
      Token.IsLongName ⟨.name, "aVeryLongIdentifier", 4⟩) ∧
    ∃ first e, Token.firstLongName? "f(1,aVeryLongIdentifier)$" = some first ∧ first.start ≤ 4 ∧
      expression.parse (α := Float) "f(1,aVeryLongIdentifier)$" = .error e ∧
      (e = ⟨.nameTooLong first, first.span⟩ ∨
        e.cause.isFatal = false ∧ e.span.start ≤ first.start) :=
  have hmem : ⟨.name, "aVeryLongIdentifier", 4⟩ ∈
      Token.beforeEnd "f(1,aVeryLongIdentifier)$" := by
    have hbefore : Token.beforeEnd "f(1,aVeryLongIdentifier)$" = [⟨.name, "f", 0⟩,
        ⟨.punct .openParen, "(", 1⟩, ⟨.integer, "1", 2⟩, ⟨.punct .comma, ",", 3⟩,
        ⟨.name, "aVeryLongIdentifier", 4⟩, ⟨.punct .closeParen, ")", 23⟩] := by cbv
    rw [hbefore]
    decide
  have hlong : Token.IsLongName ⟨.name, "aVeryLongIdentifier", 4⟩ := by decide
  ⟨⟨hmem, hlong⟩, (parse_long_name expression _).2 _ hmem hlong⟩

end Entry

end Fluxion
