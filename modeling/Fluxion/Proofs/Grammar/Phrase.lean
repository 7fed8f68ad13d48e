import Fluxion.Grammar.Reading

/-!
# The grammar

The context-free grammar of the language, apart from any way of reading it. A phrase is a list of
tokens, and comes with the tree it stands for:

```
program    := definition*
definition := "function" id "(" (id ("," id)*)? ")" block
block      := "{" sequence "}"
sequence   := statement*
statement  := if | while | return ";" | for | expression ";"
if         := "if" "(" expression ")" block ("else" block)?
while      := "while" expression block
for        := "for" "(" expression ";" expression ";" expression ")" block
return     := "return" "(" expression ")"
expression := sum (("<" | ">" | "~") sum)?
sum        := product (("+" | "-") product)*
product    := power (("*" | "/") power)*
power      := part ("^" part)?
part       := "(" expression ")" | id "=" expression | number | id arguments | id
arguments  := "(" (expression ("," expression)*)? ")"
number     := "-"? (integer | decimal)
```

The grammar is ambiguous: `x = a + b` is an assignment of a sum, and also a sum whose first term is
an assignment.
-/

namespace Fluxion

/-- A name of at most `maxNameBytes` bytes. -/
def Token.IsIdentifier (o : Token) : Prop := o.kind = .name ∧ o.text.utf8ByteSize ≤ maxNameBytes

namespace Phrase

theorem ne_pow_of_additive {op : NaryOp} (h : op = .add ∨ op = .sub) : op ≠ .pow := by
  rcases h with rfl | rfl <;> decide

theorem ne_pow_of_multiplicative {op : NaryOp} (h : op = .mul ∨ op = .div) : op ≠ .pow := by
  rcases h with rfl | rfl <;> decide

variable {α : Type} [Literal α]

/-- A digit token, and perhaps a minus sign that ends exactly where the digits start. -/
inductive Number : List Token → α → Prop
  | unsigned {o : Token} :
      o.isNumber = true → Number [o] (Literal.ofDigits o.text)
  | negative {sign o : Token} :
      sign.kind = .punct .minus → o.isNumber = true → sign.stop = o.start →
      Number [sign, o] (Literal.negate (Literal.ofDigits o.text))

mutual

/-- `expression := sum (("<" | ">" | "~") sum)?` -/
inductive Expression : List Token → Tree α → Prop
  | sum {last : Option NaryOp} {w : List Token} {t : Tree α} : Sum last w t → Expression w t
  | comparison {last last' : Option NaryOp} {r : Relation} {o : Token} {w w' : List Token}
      {t t' : Tree α} :
      Sum last w t → o.kind = .punct r.mark → Sum last' w' t' →
      Expression (w ++ o :: w') (.node (.relation r) [t, t'])

/-- `sum := product (("+" | "-") product)*`, with the operator written last, if there is one. A run
of one operator is one node, and another operator wraps what stands before it. -/
inductive Sum : Option NaryOp → List Token → Tree α → Prop
  | single {last : Option NaryOp} {w : List Token} {t : Tree α} : Product last w t → Sum none w t
  | extend {op : NaryOp} {last : Option NaryOp} {o : Token} {w w' : List Token}
      {ts : List (Tree α)} {t : Tree α} :
      op = .add ∨ op = .sub → Sum (some op) w (.node (.nary op) ts) →
      o.kind = .punct op.mark → Product last w' t →
      Sum (some op) (w ++ o :: w') (.node (.nary op) (ts ++ [t]))
  | wrap {op : NaryOp} {last last' : Option NaryOp} {o : Token} {w w' : List Token}
      {t t' : Tree α} :
      op = .add ∨ op = .sub → Sum last w t → last ≠ some op →
      o.kind = .punct op.mark → Product last' w' t' →
      Sum (some op) (w ++ o :: w') (.node (.nary op) [t, t'])

/-- `product := power (("*" | "/") power)*`, with the operator written last, if there is one. -/
inductive Product : Option NaryOp → List Token → Tree α → Prop
  | single {w : List Token} {t : Tree α} : Power w t → Product none w t
  | extend {op : NaryOp} {o : Token} {w w' : List Token} {ts : List (Tree α)} {t : Tree α} :
      op = .mul ∨ op = .div → Product (some op) w (.node (.nary op) ts) →
      o.kind = .punct op.mark → Power w' t →
      Product (some op) (w ++ o :: w') (.node (.nary op) (ts ++ [t]))
  | wrap {op : NaryOp} {last : Option NaryOp} {o : Token} {w w' : List Token} {t t' : Tree α} :
      op = .mul ∨ op = .div → Product last w t → last ≠ some op →
      o.kind = .punct op.mark → Power w' t' →
      Product (some op) (w ++ o :: w') (.node (.nary op) [t, t'])

/-- `power := part ("^" part)?` -/
inductive Power : List Token → Tree α → Prop
  | part {w : List Token} {t : Tree α} : Part w t → Power w t
  | raised {o : Token} {w w' : List Token} {t t' : Tree α} :
      Part w t → o.kind = .punct .caret → Part w' t' →
      Power (w ++ o :: w') (.node (.nary .pow) [t, t'])

/-- `part := "(" expression ")" | id "=" expression | number | id arguments | id`. A known function
of one argument is an operator of its own, and every other call is a call. -/
inductive Part : List Token → Tree α → Prop
  | parenthesized {l r : Token} {w : List Token} {t : Tree α} :
      l.kind = .punct .openParen → Expression w t → r.kind = .punct .closeParen →
      Part (l :: (w ++ [r])) t
  | assignment {name eq : Token} {w : List Token} {t : Tree α} :
      name.IsIdentifier → eq.kind = .punct .equals → Expression w t →
      Part (name :: eq :: w) (.node .assign [.var name.text, t])
  | number {w : List Token} {n : α} : Number w n → Part w (.num n)
  | func {name : Token} {f : Func} {w : List Token} {t : Tree α} :
      name.IsIdentifier → name.text = f.name → Arguments w [t] →
      Part (name :: w) (.node (.func f) [t])
  | call {name : Token} {w : List Token} {ts : List (Tree α)} :
      name.IsIdentifier → (∀ f : Func, name.text = f.name → ts.length ≠ 1) → Arguments w ts →
      Part (name :: w) (.node (.call name.text) ts)
  | name {name : Token} : name.IsIdentifier → Part [name] (.var name.text)

/-- `arguments := "(" (expression ("," expression)*)? ")"` -/
inductive Arguments : List Token → List (Tree α) → Prop
  | none {l r : Token} :
      l.kind = .punct .openParen → r.kind = .punct .closeParen → Arguments [l, r] []
  | some {l r : Token} {w w' : List Token} {t : Tree α} {ts : List (Tree α)} :
      l.kind = .punct .openParen → Expression w t → MoreArguments w' ts →
      r.kind = .punct .closeParen → Arguments (l :: (w ++ w' ++ [r])) (t :: ts)

/-- `("," expression)*` -/
inductive MoreArguments : List Token → List (Tree α) → Prop
  | nil : MoreArguments [] []
  | cons {comma : Token} {w w' : List Token} {t : Tree α} {ts : List (Tree α)} :
      comma.kind = .punct .comma → Expression w t → MoreArguments w' ts →
      MoreArguments (comma :: (w ++ w')) (t :: ts)

end

mutual

/-- `statement := if | while | return ";" | for | expression ";"` -/
inductive Statement : List Token → Tree α → Prop
  | ifThen {kw l r : Token} {w w' : List Token} {c yes : Tree α} :
      kw.kind = .keyword .ifKw → l.kind = .punct .openParen → Expression w c →
      r.kind = .punct .closeParen → Block w' yes →
      Statement (kw :: l :: (w ++ r :: w')) (.node .ifElse [c, yes])
  | ifThenElse {kw l r kw' : Token} {w w' w'' : List Token} {c yes no : Tree α} :
      kw.kind = .keyword .ifKw → l.kind = .punct .openParen → Expression w c →
      r.kind = .punct .closeParen → Block w' yes →
      kw'.kind = .keyword .elseKw → Block w'' no →
      Statement (kw :: l :: (w ++ r :: (w' ++ kw' :: w''))) (.node .ifElse [c, yes, no])
  | whileLoop {kw : Token} {w w' : List Token} {c body : Tree α} :
      kw.kind = .keyword .whileKw → Expression w c → Block w' body →
      Statement (kw :: (w ++ w')) (.node .whileLoop [c, body])
  | giveBack {kw l r s : Token} {w : List Token} {t : Tree α} :
      kw.kind = .keyword .returnKw → l.kind = .punct .openParen → Expression w t →
      r.kind = .punct .closeParen → s.kind = .punct .semicolon →
      Statement (kw :: l :: (w ++ [r, s])) (.node .giveBack [t])
  | forLoop {kw l s s' r : Token} {w w' w'' v : List Token} {first c step body : Tree α} :
      kw.kind = .keyword .forKw → l.kind = .punct .openParen → Expression w first →
      s.kind = .punct .semicolon → Expression w' c → s'.kind = .punct .semicolon →
      Expression w'' step → r.kind = .punct .closeParen → Block v body →
      Statement (kw :: l :: (w ++ s :: (w' ++ s' :: (w'' ++ r :: v))))
        (.node .forLoop [first, c, step, body])
  | expression {s : Token} {w : List Token} {t : Tree α} :
      Expression w t → s.kind = .punct .semicolon → Statement (w ++ [s]) t

/-- `block := "{" sequence "}"` -/
inductive Block : List Token → Tree α → Prop
  | mk {l r : Token} {w : List Token} {ts : List (Tree α)} :
      l.kind = .punct .openCurly → Sequence w ts → r.kind = .punct .closeCurly →
      Block (l :: (w ++ [r])) (.node .sequence ts)

/-- `sequence := statement*` -/
inductive Sequence : List Token → List (Tree α) → Prop
  | nil : Sequence [] []
  | cons {w w' : List Token} {t : Tree α} {ts : List (Tree α)} :
      Statement w t → Sequence w' ts → Sequence (w ++ w') (t :: ts)

end

/-- `("," id)*` -/
inductive MoreParameters : List Token → List Token → Prop
  | nil : MoreParameters [] []
  | cons {comma name : Token} {w names : List Token} :
      comma.kind = .punct .comma → name.IsIdentifier → MoreParameters w names →
      MoreParameters (comma :: name :: w) (name :: names)

/-- `"(" (id ("," id)*)? ")"` -/
inductive Parameters : List Token → List Token → Prop
  | none {l r : Token} :
      l.kind = .punct .openParen → r.kind = .punct .closeParen → Parameters [l, r] []
  | some {l r name : Token} {w names : List Token} :
      l.kind = .punct .openParen → name.IsIdentifier → MoreParameters w names →
      r.kind = .punct .closeParen → Parameters (l :: name :: (w ++ [r])) (name :: names)

/-- `definition := "function" id "(" (id ("," id)*)? ")" block` -/
inductive Definition : List Token → Tree α → Prop
  | mk {kw name : Token} {w w' names : List Token} {body : Tree α} :
      kw.kind = .keyword .functionKw → name.IsIdentifier → Parameters w names → Block w' body →
      Definition (kw :: name :: (w ++ w'))
        (.node (.define name.text) (names.map (fun n => .var n.text) ++ [body]))

/-- `program := definition*` -/
inductive Program : List Token → List (Tree α) → Prop
  | nil : Program [] []
  | cons {w w' : List Token} {t : Tree α} {ts : List (Tree α)} :
      Definition w t → Program w' ts → Program (w ++ w') (t :: ts)

end Phrase

/-- What each way of reading a text takes for a sentence, with the tree of the sentence. -/
def Entry.Sentence {α : Type} [Literal α] : Entry → List Token → Tree α → Prop
  | expression, w, t => Phrase.Expression w t
  | statements, w, t => ∃ ts, Phrase.Sequence w ts ∧ t = .node .sequence ts
  | program, w, t => ∃ ts, Phrase.Program w ts ∧ t = .node .sequence ts

end Fluxion
