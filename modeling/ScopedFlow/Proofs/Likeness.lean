import ScopedFlow.Proofs.Printer

/-!
# Trees of the same shape

A tree is like another one if it has the same statements and parts at the same positions; how far
names, literals and the order of arguments may differ is a parameter. Like trees where nothing may
differ have the same text.
-/

namespace ScopedFlow

/-- How far two trees may differ. -/
structure Likeness where
  /-- A name, and what is written for it. -/
  name : String → String → Prop
  literal : String → String → Prop
  arguments : List Arg → List Arg → Prop
  /-- A name in a header, the text of the header, and what is written for it. -/
  header : String → String → String → Prop

/-- Nothing differs. -/
def Likeness.exact : Likeness := ⟨Eq, Eq, Eq, fun name _ written => name = written⟩

variable (L : Likeness)

mutual
inductive Expr.Like : Expr → Expr → Prop where
  | name {a b : String} (h : L.name a b) : Expr.Like (.name a) (.name b)
  | literal {a b : String} (h : L.literal a b) : Expr.Like (.literal a) (.literal b)
  | unary (op : String) {a a' : Expr} (h : Expr.Like a a') : Expr.Like (.unary op a) (.unary op a')
  | binary (op : String) {a a' b b' : Expr} (ha : Expr.Like a a') (hb : Expr.Like b b') :
    Expr.Like (.binary op a b) (.binary op a' b')
  | call (callee : String) {args order args' : List Arg} (ho : L.arguments args order)
    (h : Arg.AllLike order args') : Expr.Like (.call callee args) (.call callee args')
  | methodCall {a a' : Expr} (method : String) {args order args' : List Arg} (ha : Expr.Like a a')
    (ho : L.arguments args order) (h : Arg.AllLike order args') :
    Expr.Like (.methodCall a method args) (.methodCall a' method args')
  | attribute {a a' : Expr} (name : String) (h : Expr.Like a a') :
    Expr.Like (.attribute a name) (.attribute a' name)
  | subscript {a a' b b' : Expr} (ha : Expr.Like a a') (hb : Expr.Like b b') :
    Expr.Like (.subscript a b) (.subscript a' b')
  | list {items items' : List Expr} (h : Expr.AllLike items items') :
    Expr.Like (.list items) (.list items')
  | dict {entries entries' : List Pair} (h : Pair.AllLike entries entries') :
    Expr.Like (.dict entries) (.dict entries')

inductive Arg.AllLike : List Arg → List Arg → Prop where
  | nil : Arg.AllLike [] []
  | positional {a a' : Expr} {args args' : List Arg} (ha : Expr.Like a a')
    (h : Arg.AllLike args args') : Arg.AllLike (.positional a :: args) (.positional a' :: args')
  | keyword (name : String) {a a' : Expr} {args args' : List Arg} (ha : Expr.Like a a')
    (h : Arg.AllLike args args') : Arg.AllLike (.keyword name a :: args) (.keyword name a' :: args')

inductive Expr.AllLike : List Expr → List Expr → Prop where
  | nil : Expr.AllLike [] []
  | cons {a a' : Expr} {items items' : List Expr} (ha : Expr.Like a a')
    (h : Expr.AllLike items items') : Expr.AllLike (a :: items) (a' :: items')

inductive Pair.AllLike : List Pair → List Pair → Prop where
  | nil : Pair.AllLike [] []
  | cons {a a' b b' : Expr} {rest rest' : List Pair} (ha : Expr.Like a a') (hb : Expr.Like b b')
    (h : Pair.AllLike rest rest') : Pair.AllLike (.mk a b :: rest) (.mk a' b' :: rest')
end

/-- The expression of a header may be a name that is not bound. -/
inductive Phrase.Like : Phrase → Phrase → Prop where
  | bound {p p' : Phrase} (h : p.expr.Like L p'.expr) : Phrase.Like p p'
  | unbound {name text written : String} (text' : String) (h : L.header name text written) :
    Phrase.Like ⟨text, .name name⟩ ⟨text', .name written⟩

inductive Phrase.CaughtLike : Option Phrase → Option Phrase → Prop where
  | none : Phrase.CaughtLike none none
  | some {p p' : Phrase} (h : p.Like L p') : Phrase.CaughtLike (some p) (some p')

mutual
inductive Stmt.Like : Stmt → Stmt → Prop where
  | assign (name : String) {a a' : Expr} (h : a.Like L a') :
    Stmt.Like (.assign name a) (.assign name a')
  /-- An augmented assignment is written out. -/
  | augment {name shown : String} (op : String) {a a' : Expr} (hn : L.name name shown)
    (h : a.Like L a') :
    Stmt.Like (.augment name op a) (.assign name (.binary op (.name shown) a'))
  | call {a a' : Expr} (hc : a.isCall = true) (h : a.Like L a') : Stmt.Like (.eval a) (.eval a')
  | text (text : String) : Stmt.Like (.eval (.literal text)) .skip
  | ret : Stmt.Like (.ret none) (.ret none)
  | value {a a' : Expr} (h : a.Like L a') : Stmt.Like (.ret (some a)) (.ret (some a'))
  | function (name : String) (params : List Param) {body body' : List Stmt}
    (h : Stmt.AllLike body body') :
    Stmt.Like (.function name params body) (.function name params body')
  | class (name : String) (bases : List String) {body body' : List Stmt}
    (h : Stmt.AllLike body body') : Stmt.Like (.class name bases body) (.class name bases body')
  | branch {test test' : Phrase} {body body' : List Stmt} {rest rest' : Alternatives}
    (ht : test.Like L test') (h : Stmt.AllLike body body') (hr : Alternatives.Like rest rest') :
    Stmt.Like (.branch test body rest) (.branch test' body' rest')
  | each (target : Target) {source source' : Phrase} {body body' : List Stmt}
    (hs : source.Like L source') (h : Stmt.AllLike body body') :
    Stmt.Like (.each target source body) (.each target source' body')
  | while {test test' : Phrase} {body body' : List Stmt} (ht : test.Like L test')
    (h : Stmt.AllLike body body') : Stmt.Like (.while test body) (.while test' body')
  | attempt {body body' : List Stmt} {clauses clauses' : List Handler}
    (h : Stmt.AllLike body body') (hc : Handler.AllLike clauses clauses') :
    Stmt.Like (.attempt body clauses) (.attempt body' clauses')
  | import (text : String) (names : List String) :
    Stmt.Like (.import text names) (.import text names)
  | skip : Stmt.Like .skip .skip

inductive Stmt.AllLike : List Stmt → List Stmt → Prop where
  | nil : Stmt.AllLike [] []
  | cons {a a' : Stmt} {rest rest' : List Stmt} (ha : Stmt.Like a a')
    (h : Stmt.AllLike rest rest') : Stmt.AllLike (a :: rest) (a' :: rest')

inductive Alternatives.Like : Alternatives → Alternatives → Prop where
  | done : Alternatives.Like .done .done
  | elif {test test' : Phrase} {body body' : List Stmt} {rest rest' : Alternatives}
    (ht : test.Like L test') (h : Stmt.AllLike body body') (hr : Alternatives.Like rest rest') :
    Alternatives.Like (.elif test body rest) (.elif test' body' rest')
  | otherwise {body body' : List Stmt} (h : Stmt.AllLike body body') :
    Alternatives.Like (.otherwise body) (.otherwise body')

inductive Handler.AllLike : List Handler → List Handler → Prop where
  | nil : Handler.AllLike [] []
  | cons {caught caught' : Option Phrase} (binding : Option String) {body body' : List Stmt}
    {rest rest' : List Handler} (hc : Phrase.CaughtLike L caught caught')
    (hb : Stmt.AllLike body body') (h : Handler.AllLike rest rest') :
    Handler.AllLike (.mk caught binding body :: rest) (.mk caught' binding body' :: rest')
end

mutual
theorem Expr.Like.eq : {a b : Expr} → a.Like .exact b → b = a
  | _, _, .name h => congrArg Expr.name (Eq.symm h)
  | _, _, .literal h => congrArg Expr.literal (Eq.symm h)
  | _, _, .unary op h => congrArg (Expr.unary op) h.eq
  | _, _, .binary op ha hb => by rw [ha.eq, hb.eq]
  | _, _, .call callee ho h => by
    obtain rfl := ho
    rw [h.eq]
  | _, _, .methodCall method ha ho h => by
    obtain rfl := ho
    rw [ha.eq, h.eq]
  | _, _, .attribute name h => by rw [h.eq]
  | _, _, .subscript ha hb => by rw [ha.eq, hb.eq]
  | _, _, .list h => congrArg Expr.list h.eq
  | _, _, .dict h => congrArg Expr.dict h.eq

theorem Arg.AllLike.eq : {as bs : List Arg} → Arg.AllLike .exact as bs → bs = as
  | _, _, .nil => rfl
  | _, _, .positional ha h => by rw [ha.eq, h.eq]
  | _, _, .keyword name ha h => by rw [ha.eq, h.eq]

theorem Expr.AllLike.eq : {as bs : List Expr} → Expr.AllLike .exact as bs → bs = as
  | _, _, .nil => rfl
  | _, _, .cons ha h => by rw [ha.eq, h.eq]

theorem Pair.AllLike.eq : {as bs : List Pair} → Pair.AllLike .exact as bs → bs = as
  | _, _, .nil => rfl
  | _, _, .cons ha hb h => by rw [ha.eq, hb.eq, h.eq]
end

theorem Phrase.Like.expr_eq {p p' : Phrase} (h : p.Like .exact p') : p'.expr = p.expr := by
  cases h with
  | bound h => exact h.eq
  | unbound text' h => exact congrArg Expr.name (Eq.symm h)

theorem Phrase.CaughtLike.text_eq {c c' : Option Phrase} (h : Phrase.CaughtLike .exact c c') :
    caughtText c' = caughtText c := by
  cases h with
  | none => rfl
  | some h => rw [caughtText, caughtText, h.expr_eq]

mutual
theorem Stmt.Like.lines_eq : {a b : Stmt} → a.Like .exact b → b.lines = a.lines
  | _, _, .assign name h => by rw [h.eq]
  | _, _, .augment op hn h => by
    obtain rfl := hn
    rw [h.eq]
    rfl
  | _, _, .call hc h => by rw [h.eq]
  | _, _, .text text => rfl
  | _, _, .ret => rfl
  | _, _, .value h => by rw [h.eq]
  | _, _, .function name params h => by rw [Stmt.lines, Stmt.lines, h.lines_eq]
  | _, _, .class name bases h => by rw [Stmt.lines, Stmt.lines, h.lines_eq]
  | _, _, .branch ht h hr => by
    rw [Stmt.lines, Stmt.lines, ht.expr_eq, h.lines_eq, hr.lines_eq]
  | _, _, .each target hs h => by rw [Stmt.lines, Stmt.lines, hs.expr_eq, h.lines_eq]
  | _, _, .while ht h => by rw [Stmt.lines, Stmt.lines, ht.expr_eq, h.lines_eq]
  | _, _, .attempt h hc => by rw [Stmt.lines, Stmt.lines, h.lines_eq, hc.lines_eq]
  | _, _, .import text names => rfl
  | _, _, .skip => rfl

theorem Stmt.AllLike.lines_eq : {as bs : List Stmt} → Stmt.AllLike .exact as bs →
    Stmt.allLines bs = Stmt.allLines as
  | _, _, .nil => rfl
  | _, _, .cons ha h => by rw [Stmt.allLines, Stmt.allLines, ha.lines_eq, h.lines_eq]

theorem Alternatives.Like.lines_eq : {a b : Alternatives} → a.Like .exact b → b.lines = a.lines
  | _, _, .done => rfl
  | _, _, .elif ht h hr => by
    rw [Alternatives.lines, Alternatives.lines, ht.expr_eq, h.lines_eq, hr.lines_eq]
  | _, _, .otherwise h => by rw [Alternatives.lines, Alternatives.lines, h.lines_eq]

theorem Handler.AllLike.lines_eq : {as bs : List Handler} → Handler.AllLike .exact as bs →
    Handler.allLines bs = Handler.allLines as
  | _, _, .nil => rfl
  | _, _, .cons binding hc hb h => by
    rw [Handler.allLines, Handler.allLines, hc.text_eq, hb.lines_eq, h.lines_eq]
end

variable {L}

mutual
theorem Stmt.Like.imports_eq : {a b : Stmt} → a.Like L b → b.imports = a.imports
  | _, _, .assign name h => rfl
  | _, _, .augment op hn h => rfl
  | _, _, .call hc h => rfl
  | _, _, .text text => rfl
  | _, _, .ret => rfl
  | _, _, .value h => rfl
  | _, _, .function name params h => h.imports_eq
  | _, _, .class name bases h => h.imports_eq
  | _, _, .branch ht h hr => by rw [Stmt.imports, Stmt.imports, h.imports_eq, hr.imports_eq]
  | _, _, .each target hs h => h.imports_eq
  | _, _, .while ht h => h.imports_eq
  | _, _, .attempt h hc => by rw [Stmt.imports, Stmt.imports, h.imports_eq, hc.imports_eq]
  | _, _, .import text names => rfl
  | _, _, .skip => rfl

theorem Stmt.AllLike.imports_eq : {as bs : List Stmt} → Stmt.AllLike L as bs →
    Stmt.allImports bs = Stmt.allImports as
  | _, _, .nil => rfl
  | _, _, .cons ha h => by rw [Stmt.allImports, Stmt.allImports, ha.imports_eq, h.imports_eq]

theorem Alternatives.Like.imports_eq : {a b : Alternatives} → a.Like L b → b.imports = a.imports
  | _, _, .done => rfl
  | _, _, .elif ht h hr => by
    rw [Alternatives.imports, Alternatives.imports, h.imports_eq, hr.imports_eq]
  | _, _, .otherwise h => h.imports_eq

theorem Handler.AllLike.imports_eq : {as bs : List Handler} → Handler.AllLike L as bs →
    Handler.allImports bs = Handler.allImports as
  | _, _, .nil => rfl
  | _, _, .cons binding hc hb h => by
    rw [Handler.allImports, Handler.allImports, hb.imports_eq, h.imports_eq]
end

end ScopedFlow
