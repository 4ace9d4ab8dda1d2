import ScopedFlow.Proofs.Gathering
import ScopedFlow.Proofs.Linking
import ScopedFlow.Proofs.Statements

/-!
# Blocks in the order of the text

The nodes of a graph that own a body are the blocks of the tree, each with its label and its header,
one after the other as the text opens them.
-/

namespace ScopedFlow

structure Opening where
  label : String
  payload : Payload

mutual
def Stmt.openings : Stmt → List Opening
  | .function name params body => ⟨name, .functionDef params⟩ :: Stmt.allOpenings body
  | .class name bases body => ⟨name, .classDef bases⟩ :: Stmt.allOpenings body
  | .branch test body rest =>
    ⟨"if " ++ test.text, .ifBlock⟩ :: (Stmt.allOpenings body ++ rest.openings)
  | .each target source body =>
    ⟨"for " ++ target.text ++ " in " ++ source.text, .forBlock target.text⟩ :: Stmt.allOpenings body
  | .while test body => ⟨"while " ++ test.text, .whileBlock⟩ :: Stmt.allOpenings body
  | .attempt body clauses =>
    ⟨"try", .tryBlock⟩ :: (Stmt.allOpenings body ++ Handler.allOpenings clauses)
  | .assign _ _ | .augment _ _ _ | .eval _ | .ret _ | .import _ _ | .skip => []

def Stmt.allOpenings : List Stmt → List Opening
  | [] => []
  | stmt :: rest => stmt.openings ++ Stmt.allOpenings rest

def Alternatives.openings : Alternatives → List Opening
  | .done => []
  | .elif test body rest =>
    ⟨"elif " ++ test.text, .elifBlock⟩ :: (Stmt.allOpenings body ++ rest.openings)
  | .otherwise body => ⟨"else", .elseBlock⟩ :: Stmt.allOpenings body

def Handler.allOpenings : List Handler → List Opening
  | [] => []
  | .mk caught binding body :: rest =>
    ⟨Builder.handlerLabel caught binding, .exceptBlock (caught.map (·.text)) binding⟩ ::
      (Stmt.allOpenings body ++ Handler.allOpenings rest)
end

namespace Steps

def Sketch.opening? (s : Sketch) : Option Opening :=
  match s.content with
  | .plain payload => if payload.kind.ownsWorld then some ⟨s.label, payload⟩ else none
  | _ => none

def openings (ss : List Step) : List Opening := (sketches ss).filterMap Sketch.opening?

theorem gathers_openings : Gathers Sketch.opening? (fun label payload => [⟨label, payload⟩])
    (fun _ => []) (fun _ => []) Stmt.openings Stmt.allOpenings Alternatives.openings
    Handler.allOpenings where
  toWalks := by constructor <;> intros <;> first | rfl | exact (ite_self _).symm
  owner w label payload hp := by simp [Sketch.opening?, hp]
  used w outer port k e _ := by
    refine gather_expr_eq_nil (fun w label content hc => ?_) port k e
    cases content with
    | plain payload => cases payload <;> first | rfl | cases hc
    | _ => rfl
  loaded _ _ := rfl
  write _ _ := rfl
  param _ _ _ := rfl
  returns _ _ := rfl

theorem openings_statements (w : Place) (outer : List Place) (k : Nat) (stmts : List Stmt) :
    openings (statements w outer k stmts) = Stmt.allOpenings stmts :=
  gather_statements gathers_openings stmts

end Steps

def Node.opening? (n : Node) : Option Opening :=
  if n.kind.ownsWorld then some ⟨n.label, n.payload⟩ else none

def Graph.openings (g : Graph) : List Opening := g.nodes.filterMap Node.opening?

namespace Run
open Steps

theorem opening_finished (q : Run) (k : Nat) (sketch : Sketch) (version : Nat) :
    (q.finished (.made k sketch version)).opening? = Sketch.opening? sketch := by
  obtain ⟨w, label, content⟩ := sketch
  have hkind := Graph.kind_settled q.builder.graph (q.draw (.made k ⟨w, label, content⟩ version))
  rw [Node.opening?, finished, hkind]
  cases content with
  | plain payload =>
    by_cases ho : payload.kind.ownsWorld = true
    · have hsite : ∀ site, payload ≠ .call site := by
        rintro site rfl
        cases ho
      have hplain := Draws.finished_plain q k w label hsite version
      rw [finished] at hplain
      rw [hplain]
      rfl
    · have hnone : payload.kind.ownsWorld = false := Bool.not_eq_true _ ▸ ho
      simp [draw, Node.kind, Content.payload, Sketch.opening?, hnone]
  | param optional => rfl
  | write => rfl
  | call isMethod args => cases isMethod <;> rfl

theorem Draws.openings {q : Run} {all : List Step} (h : Draws q all) :
    q.linked.openings = Steps.openings all := by
  rw [Graph.openings, h.nodes]
  refine gather_items (opening_finished q) (fun s => ?_) all
  rw [Node.opening?, finished, Graph.kind_settled]
  rfl

end Run

end ScopedFlow
