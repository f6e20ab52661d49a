import Mathlib.Data.List.Basic

/-!
# Cutting a template at `.Response`: model of `deleteNode` in `template/template.go`

`walk` with the predicate that `Execute` passes, which is true of every node after the first
field that names `Response`, and false of such fields. A panic of a type assertion is `none`.
-/

namespace Ollama.Template

open List

/-! ## §1  Trees -/

inductive Arg where
  | field (ident : List String)
  | pipe (cmds : List (List Arg))
  | other (text : String)

inductive Branch where
  | ifNode
  | withNode
  | rangeNode
deriving DecidableEq, Repr

/-- The nodes of lists: actions, branches, and nodes without pipelines. -/
inductive Node where
  | leaf (text : String)
  | action (pipe : List (List Arg))
  | branch (kind : Branch) (pipe : List (List Arg)) (list : List Node)
      (elseList : Option (List Node))

/-- `slices.Contains(field.Ident, "Response")` for a field -/
def Arg.isResponse : Arg → Bool
  | .field ident => ident.contains "Response"
  | _ => false

mutual

/-- Pipelines have commands, and commands have arguments. -/
def Arg.Parsed : Arg → Prop
  | .pipe cmds => cmds ≠ [] ∧ cmdsParsed cmds
  | _ => True

def argsParsed : List Arg → Prop
  | [] => True
  | a :: rest => a.Parsed ∧ argsParsed rest

def cmdsParsed : List (List Arg) → Prop
  | [] => True
  | c :: rest => (c ≠ [] ∧ argsParsed c) ∧ cmdsParsed rest

end

def pipeParsed (cmds : List (List Arg)) : Prop := cmds ≠ [] ∧ cmdsParsed cmds

mutual

def Node.Parsed : Node → Prop
  | .leaf _ => True
  | .action pipe => pipeParsed pipe
  | .branch _ pipe list none => pipeParsed pipe ∧ nodesParsed list
  | .branch _ pipe list (some elseList) =>
      pipeParsed pipe ∧ nodesParsed list ∧ nodesParsed elseList

def nodesParsed : List Node → Prop
  | [] => True
  | n :: rest => n.Parsed ∧ nodesParsed rest

end

/-! ## §2  `walk` -/

mutual

/-- `walk` of an argument, with the flag `cut` before and after. -/
def walkArg (cut : Bool) : Arg → Option Arg × Bool
  | .field ident =>
      if ident.contains "Response" then (some (.field ident), true)
      else if cut then (none, cut) else (some (.field ident), cut)
  | .pipe cmds =>
      if cut then (none, cut)
      else
        match walkCmds cut cmds with
        | (some (c :: cs), cut) => (some (.pipe (c :: cs)), cut)
        | (_, cut) => (none, cut)
  | .other text => if cut then (none, cut) else (some (.other text), cut)

def walkArgs (cut : Bool) : List Arg → List Arg × Bool
  | [] => ([], cut)
  | a :: rest =>
      let (a', cut) := walkArg cut a
      let (rest', cut) := walkArgs cut rest
      (a'.toList ++ rest', cut)

/-- The commands of a pipeline, or `none` as soon as one has no arguments left. -/
def walkCmds (cut : Bool) : List (List Arg) → Option (List (List Arg)) × Bool
  | [] => (some [], cut)
  | c :: rest =>
      match walkArgs cut c with
      | ([], cut) => (none, cut)
      | (a :: args, cut) =>
          let (rest', cut) := walkCmds cut rest
          (rest'.map ((a :: args) :: ·), cut)

end

/-- `walk` of the pipeline of an action, of which the predicate is false. -/
def walkPipe (cut : Bool) (cmds : List (List Arg)) : Option (List (List Arg)) × Bool :=
  match walkCmds cut cmds with
  | (some (c :: cs), cut) => (some (c :: cs), cut)
  | (_, cut) => (none, cut)

mutual

/-- `walk` of a node. -/
def walkNode (cut : Bool) : Node → Option (Option Node × Bool)
  | .leaf text => some (if cut then none else some (.leaf text), cut)
  | .action pipe =>
      if cut then some (none, cut)
      else
        let (pipe', cut) := walkPipe cut pipe
        some (pipe'.map .action, cut)
  | .branch kind pipe list none =>
      if cut then some (none, cut)
      else do
        let (list', cut) ← walkNodes cut list
        pure (some (.branch kind pipe list' none), cut)
  | .branch kind pipe list (some elseList) =>
      if cut then some (none, cut)
      else do
        let (list', cut) ← walkNodes cut list
        -- the predicate is true of the else list: `walk` returns nil, which is asserted to be a list
        if cut then none
        else
          let (elseList', cut) ← walkNodes cut elseList
          pure (some (.branch kind pipe list' (some elseList')), cut)

def walkNodes (cut : Bool) : List Node → Option (List Node × Bool)
  | [] => some ([], cut)
  | n :: rest => do
      let (n', cut) ← walkNode cut n
      let (rest', cut) ← walkNodes cut rest
      pure (n'.toList ++ rest', cut)

end

/-- `deleteNode` of the root, a list. -/
def deleteNode (root : List Node) : Option (List Node) := (walkNodes false root).map Prod.fst

/-! ## §3  The tree that is meant -/

mutual

/-- A field that names `Response` is in the argument. -/
def Arg.has : Arg → Bool
  | .field ident => ident.contains "Response"
  | .pipe cmds => cmdsHas cmds
  | .other _ => false

def argsHas : List Arg → Bool
  | [] => false
  | a :: rest => a.has || argsHas rest

def cmdsHas : List (List Arg) → Bool
  | [] => false
  | c :: rest => argsHas c || cmdsHas rest

end

mutual

def Node.has : Node → Bool
  | .leaf _ => false
  | .action pipe => cmdsHas pipe
  | .branch _ pipe list none => cmdsHas pipe || nodesHas list
  | .branch _ pipe list (some elseList) => cmdsHas pipe || nodesHas list || nodesHas elseList

def nodesHas : List Node → Bool
  | [] => false
  | n :: rest => n.has || nodesHas rest

end

mutual

/-- The argument without what follows its first field that names `Response`. -/
def cutArg : Arg → Arg
  | .pipe cmds => .pipe (cutCmds cmds)
  | a => a

def cutArgs : List Arg → List Arg
  | [] => []
  | a :: rest => if a.has then [cutArg a] else a :: cutArgs rest

def cutCmds : List (List Arg) → List (List Arg)
  | [] => []
  | c :: rest => if argsHas c then [cutArgs c] else c :: cutCmds rest

end

mutual

/-- The node without what follows its first field that names `Response`. There is none when
that is in the pipeline of a branch, as no branch is without its list. -/
def cutNode : Node → Option Node
  | .leaf text => some (.leaf text)
  | .action pipe => some (.action (cutCmds pipe))
  | .branch kind pipe list none =>
      if cmdsHas pipe then none
      else (cutNodes list).map fun list' => .branch kind pipe list' none
  | .branch kind pipe list (some elseList) =>
      if cmdsHas pipe then none
      else if nodesHas list then (cutNodes list).map fun list' => .branch kind pipe list' none
      else (cutNodes elseList).map fun elseList' => .branch kind pipe list (some elseList')

def cutNodes : List Node → Option (List Node)
  | [] => some []
  | n :: rest =>
      if n.has then (cutNode n).map fun n' => [n'] else (cutNodes rest).map (n :: ·)

end

/-- **The cut that is meant**: `deleteNode` does not panic and gives the tree without what
follows the first field that names `Response`. -/
def CutAtResponse (root : List Node) : Prop :=
  ∃ tree, cutNodes root = some tree ∧ deleteNode root = some tree

/-! ## §4  Where the cut is clean -/

mutual

/-- The command of the first field that names `Response` is the last one of its pipeline, and
no argument after it is a field that names `Response`; so for the pipelines around it. -/
def Arg.clean : Arg → Bool
  | .pipe cmds => cmdsClean cmds
  | _ => true

def argsClean : List Arg → Bool
  | [] => true
  | a :: rest => if a.has then a.clean && !rest.any Arg.isResponse else argsClean rest

def cmdsClean : List (List Arg) → Bool
  | [] => true
  | c :: rest => if argsHas c then argsClean c && rest.isEmpty else cmdsClean rest

end

mutual

/-- Where the first field that names `Response` is in an action that is cut cleanly, in no
pipeline of a branch, and in no first list of a branch with an else list. -/
def Node.clean : Node → Bool
  | .leaf _ => true
  | .action pipe => cmdsClean pipe
  | .branch _ pipe list none => !cmdsHas pipe && nodesClean list
  | .branch _ pipe list (some elseList) =>
      !cmdsHas pipe && if nodesHas list then false else nodesClean elseList

def nodesClean : List Node → Bool
  | [] => true
  | n :: rest => if n.has then n.clean else nodesClean rest

end

/-! ## §5  Arguments and pipelines -/

theorem walkArg_true (a : Arg) :
    walkArg true a = (if a.isResponse then some a else none, true) := by
  cases a with
  | field ident =>
    show (if ident.contains "Response" = true then _ else _) =
      (if ident.contains "Response" = true then _ else _, true)
    split <;> rfl
  | pipe cmds => rw [walkArg]; rfl
  | other text => rw [walkArg]; rfl

theorem walkArgs_true (args : List Arg) :
    walkArgs true args = (args.filter Arg.isResponse, true) := by
  induction args with
  | nil => rw [walkArgs]; rfl
  | cons a rest ih =>
    rw [walkArgs, walkArg_true]
    dsimp only
    rw [ih, filter_cons]
    cases a.isResponse <;> rfl

/-- A pipeline that is kept has all its commands. -/
theorem length_walkCmds (cmds : List (List Arg)) (cut : Bool) :
    ∀ cmds', (walkCmds cut cmds).1 = some cmds' → cmds'.length = cmds.length := by
  induction cmds generalizing cut with
  | nil =>
    intro cmds' h
    rw [← Option.some.inj h]
  | cons c rest ih =>
    intro cmds' h
    rw [walkCmds] at h
    cases hargs : walkArgs cut c with
    | mk args cut' =>
      rw [hargs] at h
      cases args with
      | nil => cases h
      | cons a args =>
        obtain ⟨rest', hrest, rfl⟩ := Option.map_eq_some_iff.mp h
        rw [length_cons, length_cons, ih cut' rest' hrest]

mutual

/-- Before the cut arguments are kept as they are. -/
theorem walkArg_of_not_has : ∀ a : Arg, a.Parsed → a.has = false → walkArg false a = (some a, false)
  | .field ident, _, h => by
    rw [Arg.has] at h
    rw [walkArg, h]
    rfl
  | .other text, _, _ => by
    rw [walkArg]
    rfl
  | .pipe cmds, hp, h => by
    rw [Arg.has] at h
    rw [Arg.Parsed] at hp
    rw [walkArg, walkCmds_of_not_has cmds hp.2 h]
    cases cmds with
    | nil => exact absurd rfl hp.1
    | cons c rest => rfl

theorem walkArgs_of_not_has : ∀ args : List Arg, argsParsed args → argsHas args = false →
    walkArgs false args = (args, false)
  | [], _, _ => by rw [walkArgs]
  | a :: rest, hp, h => by
    rw [argsHas, Bool.or_eq_false_iff] at h
    rw [argsParsed] at hp
    rw [walkArgs, walkArg_of_not_has a hp.1 h.1]
    dsimp only
    rw [walkArgs_of_not_has rest hp.2 h.2]
    rfl

theorem walkCmds_of_not_has : ∀ cmds : List (List Arg), cmdsParsed cmds → cmdsHas cmds = false →
    walkCmds false cmds = (some cmds, false)
  | [], _, _ => by rw [walkCmds]
  | c :: rest, hp, h => by
    rw [cmdsHas, Bool.or_eq_false_iff] at h
    rw [cmdsParsed] at hp
    rw [walkCmds, walkArgs_of_not_has c hp.1.2 h.1]
    cases c with
    | nil => exact absurd rfl hp.1.1
    | cons a args =>
      dsimp only
      rw [walkCmds_of_not_has rest hp.2 h.2]
      rfl

end

theorem cutCmds_ne_nil {cmds : List (List Arg)} (h : cmds ≠ []) : cutCmds cmds ≠ [] := by
  cases cmds with
  | nil => exact absurd rfl h
  | cons c rest =>
    rw [cutCmds]
    split <;> exact cons_ne_nil _ _

theorem cutArgs_ne_nil {args : List Arg} (h : args ≠ []) : cutArgs args ≠ [] := by
  cases args with
  | nil => exact absurd rfl h
  | cons a rest =>
    rw [cutArgs]
    split <;> exact cons_ne_nil _ _

mutual

/-- **The first field that names `Response`** sets the flag; its argument is cut as it is meant
to be exactly when it is cut cleanly. -/
theorem walkArg_of_has : ∀ a : Arg, a.Parsed → a.has = true →
    (walkArg false a).2 = true ∧ ((walkArg false a).1 = some (cutArg a) ↔ a.clean = true)
  | .field ident, _, h => by
    rw [Arg.has] at h
    rw [walkArg, if_pos h, cutArg, Arg.clean]
    · exact ⟨rfl, fun _ => rfl, fun _ => rfl⟩
    · exact fun cmds hcmds => nomatch hcmds
    · exact fun cmds hcmds => nomatch hcmds
  | .other text, _, h => by
    rw [Arg.has] at h
    cases h
  | .pipe cmds, hp, h => by
    rw [Arg.has] at h
    rw [Arg.Parsed] at hp
    obtain ⟨hcut, hiff⟩ := walkCmds_of_has cmds hp.2 h
    rw [walkArg, cutArg, Arg.clean, ← hiff]
    have hne := cutCmds_ne_nil hp.1
    cases hwalk : walkCmds false cmds with
    | mk cmds' cut =>
      rw [hwalk] at hcut
      cases cmds' with
      | none => exact ⟨hcut, fun heq => (nomatch heq), fun heq => nomatch heq⟩
      | some cs =>
        cases cs with
        | nil =>
          refine ⟨hcut, fun heq => (nomatch heq), fun heq => ?_⟩
          exact absurd (Option.some.inj heq).symm hne
        | cons c cs =>
          refine ⟨hcut, fun heq => ?_, fun heq => ?_⟩
          · exact congrArg some (Arg.pipe.inj (Option.some.inj heq))
          · exact congrArg (some ∘ Arg.pipe) (Option.some.inj heq)

theorem walkArgs_of_has : ∀ args : List Arg, argsParsed args → argsHas args = true →
    (walkArgs false args).2 = true ∧
      ((walkArgs false args).1 = cutArgs args ↔ argsClean args = true)
  | [], _, h => by
    rw [argsHas] at h
    cases h
  | a :: rest, hp, h => by
    rw [argsHas] at h
    rw [argsParsed] at hp
    rw [walkArgs, cutArgs, argsClean]
    cases ha : a.has with
    | false =>
      rw [ha, Bool.false_or] at h
      obtain ⟨hcut, hiff⟩ := walkArgs_of_has rest hp.2 h
      rw [walkArg_of_not_has a hp.1 ha]
      refine ⟨hcut, ?_⟩
      rw [if_neg Bool.false_ne_true, if_neg Bool.false_ne_true, ← hiff]
      exact ⟨fun heq => (List.cons.inj heq).2, fun heq => congrArg (a :: ·) heq⟩
    | true =>
      obtain ⟨hcut, hiff⟩ := walkArg_of_has a hp.1 ha
      rw [if_pos rfl, if_pos rfl, Bool.and_eq_true, ← hiff]
      cases hwalk : walkArg false a with
      | mk a' cut =>
        rw [hwalk] at hcut
        change cut = true at hcut
        subst hcut
        dsimp only
        rw [walkArgs_true]
        refine ⟨rfl, ?_⟩
        have hany : (!rest.any Arg.isResponse) = true ↔ rest.filter Arg.isResponse = [] := by
          rw [Bool.not_eq_true', any_eq_false, filter_eq_nil_iff]
        rw [hany]
        cases a' with
        | some x =>
          constructor
          · intro heq
            obtain ⟨hx, hrest⟩ := List.cons.inj heq
            exact ⟨congrArg some hx, hrest⟩
          · rintro ⟨hx, hrest⟩
            show x :: rest.filter Arg.isResponse = _
            rw [hrest, Option.some.inj hx]
        | none =>
          refine ⟨fun heq => ?_, fun hand => (nomatch hand.1)⟩
          -- only a pipeline is dropped, and what is kept in its place are fields
          have hmem : cutArg a ∈ rest.filter Arg.isResponse := by
            rw [show rest.filter Arg.isResponse = [cutArg a] from heq]
            exact mem_cons_self
          have hresponse := (mem_filter.mp hmem).2
          cases a with
          | field ident =>
            rw [Arg.has] at ha
            rw [walkArg, if_pos ha] at hwalk
            cases hwalk
          | pipe cmds =>
            rw [cutArg] at hresponse
            cases hresponse
          | other text =>
            rw [Arg.has] at ha
            cases ha

theorem walkCmds_of_has : ∀ cmds : List (List Arg), cmdsParsed cmds → cmdsHas cmds = true →
    (walkCmds false cmds).2 = true ∧
      ((walkCmds false cmds).1 = some (cutCmds cmds) ↔ cmdsClean cmds = true)
  | [], _, h => by
    rw [cmdsHas] at h
    cases h
  | c :: rest, hp, h => by
    rw [cmdsHas] at h
    rw [cmdsParsed] at hp
    rw [walkCmds, cutCmds, cmdsClean]
    cases hc : argsHas c with
    | false =>
      rw [hc, Bool.false_or] at h
      obtain ⟨hcut, hiff⟩ := walkCmds_of_has rest hp.2 h
      rw [walkArgs_of_not_has c hp.1.2 hc, if_neg Bool.false_ne_true, if_neg Bool.false_ne_true,
        ← hiff]
      cases c with
      | nil => exact absurd rfl hp.1.1
      | cons a args =>
        refine ⟨hcut, ?_⟩
        dsimp only
        rw [Option.map_eq_some_iff]
        constructor
        · rintro ⟨rest', hrest, heq⟩
          rw [hrest, (List.cons.inj heq).2]
        · exact fun heq => ⟨_, heq, rfl⟩
    | true =>
      obtain ⟨hcut, hiff⟩ := walkArgs_of_has c hp.1.2 hc
      rw [if_pos rfl, if_pos rfl, Bool.and_eq_true, ← hiff]
      cases hwalk : walkArgs false c with
      | mk args cut =>
        rw [hwalk] at hcut
        change cut = true at hcut
        subst hcut
        cases args with
        | nil =>
          refine ⟨rfl, fun heq => (nomatch heq), fun hand => ?_⟩
          exact absurd hand.1.symm (cutArgs_ne_nil hp.1.1)
        | cons a args =>
          dsimp only
          have hlength := length_walkCmds rest true
          have htrue : (walkCmds true rest).2 = true := by
            have hall : ∀ cmds : List (List Arg), (walkCmds true cmds).2 = true := by
              intro cmds
              induction cmds with
              | nil => rw [walkCmds]
              | cons c cmds ih =>
                rw [walkCmds, walkArgs_true]
                cases c.filter Arg.isResponse with
                | nil => rfl
                | cons a args => exact ih
            exact hall rest
          refine ⟨htrue, ?_⟩
          rw [Option.map_eq_some_iff]
          constructor
          · rintro ⟨rest', hrest, heq⟩
            obtain ⟨hargs, rfl⟩ := List.cons.inj heq
            have := hlength [] hrest
            exact ⟨hargs, List.isEmpty_iff.mpr (length_eq_zero_iff.mp this.symm)⟩
          · rintro ⟨hargs, hempty⟩
            obtain rfl := List.isEmpty_iff.mp hempty
            exact ⟨[], by rw [walkCmds], by rw [hargs]⟩

end

/-! ## §6  Nodes -/

theorem walkNode_true (n : Node) : walkNode true n = some (none, true) := by
  cases n with
  | leaf text => rw [walkNode]; rfl
  | action pipe => rw [walkNode]; rfl
  | branch kind pipe list elseList =>
    cases elseList with
    | none => rw [walkNode]; rfl
    | some elseList => rw [walkNode]; rfl

theorem walkNodes_true (ns : List Node) : walkNodes true ns = some ([], true) := by
  induction ns with
  | nil => rw [walkNodes]
  | cons n rest ih =>
    rw [walkNodes, walkNode_true]
    show (walkNodes true rest).bind _ = _
    rw [ih]
    rfl

mutual

/-- Before the cut nodes are kept as they are. -/
theorem walkNode_of_not_has : ∀ n : Node, n.Parsed → n.has = false →
    walkNode false n = some (some n, false)
  | .leaf text, _, _ => by
    rw [walkNode]
    rfl
  | .action pipe, hp, h => by
    rw [Node.has] at h
    rw [Node.Parsed] at hp
    rw [walkNode, walkPipe, walkCmds_of_not_has pipe hp.2 h]
    cases pipe with
    | nil => exact absurd rfl hp.1
    | cons c rest => rfl
  | .branch kind pipe list none, hp, h => by
    rw [Node.has, Bool.or_eq_false_iff] at h
    rw [Node.Parsed] at hp
    rw [walkNode, walkNodes_of_not_has list hp.2 h.2]
    rfl
  | .branch kind pipe list (some elseList), hp, h => by
    rw [Node.has, Bool.or_eq_false_iff, Bool.or_eq_false_iff] at h
    rw [Node.Parsed] at hp
    rw [walkNode, walkNodes_of_not_has list hp.2.1 h.1.2]
    show (walkNodes false elseList).bind _ = _
    rw [walkNodes_of_not_has elseList hp.2.2 h.2]
    rfl

theorem walkNodes_of_not_has : ∀ ns : List Node, nodesParsed ns → nodesHas ns = false →
    walkNodes false ns = some (ns, false)
  | [], _, _ => by rw [walkNodes]
  | n :: rest, hp, h => by
    rw [nodesHas, Bool.or_eq_false_iff] at h
    rw [nodesParsed] at hp
    rw [walkNodes, walkNode_of_not_has n hp.1 h.1]
    show (walkNodes false rest).bind _ = _
    rw [walkNodes_of_not_has rest hp.2 h.2]
    rfl

end

/-- The result of `walk` is the one that is meant. -/
def Meant {α : Type} (walked : Option (α × Bool)) (meant : Option α) : Prop :=
  ∃ x cut, walked = some (x, cut) ∧ meant = some x

mutual

/-- **A node with the first field that names `Response`** is cut as it is meant to be exactly
when it is cut cleanly; and the flag is set, unless that field is where `walk` does not look. -/
theorem walkNode_of_has : ∀ n : Node, n.Parsed → n.has = true →
    (Meant (walkNode false n) ((cutNode n).map some) ↔ n.clean = true) ∧
      (cutNode n ≠ none → ∀ x cut, walkNode false n = some (x, cut) → cut = true)
  | .leaf text, _, h => by
    rw [Node.has] at h
    cases h
  | .action pipe, hp, h => by
    rw [Node.has] at h
    rw [Node.Parsed] at hp
    obtain ⟨hcut, hiff⟩ := walkCmds_of_has pipe hp.2 h
    have hne := cutCmds_ne_nil hp.1
    rw [walkNode, cutNode, Node.clean, ← hiff, walkPipe]
    cases hwalk : walkCmds false pipe with
    | mk cmds' cut =>
      rw [hwalk] at hcut
      cases cmds' with
      | none =>
        refine ⟨⟨?_, fun heq => nomatch heq⟩, fun _ x cut' heq => ?_⟩
        · rintro ⟨x, cut', hx, hmeant⟩
          obtain ⟨rfl, -⟩ := Prod.mk.inj (Option.some.inj hx)
          cases hmeant
        · rw [← (Prod.mk.inj (Option.some.inj heq)).2]
          exact hcut
      | some cs =>
        cases cs with
        | nil =>
          refine ⟨⟨?_, fun heq => absurd (Option.some.inj heq).symm hne⟩, fun _ x cut' heq => ?_⟩
          · rintro ⟨x, cut', hx, hmeant⟩
            obtain ⟨rfl, -⟩ := Prod.mk.inj (Option.some.inj hx)
            cases hmeant
          · rw [← (Prod.mk.inj (Option.some.inj heq)).2]
            exact hcut
        | cons c cs =>
          refine ⟨⟨?_, fun heq => ⟨_, _, rfl, ?_⟩⟩, fun _ x cut' heq => ?_⟩
          · rintro ⟨x, cut', hx, hmeant⟩
            obtain ⟨rfl, -⟩ := Prod.mk.inj (Option.some.inj hx)
            have heq := Node.action.inj (Option.some.inj (Option.some.inj hmeant))
            exact congrArg some heq.symm
          · rw [← Option.some.inj heq]
            rfl
          · rw [← (Prod.mk.inj (Option.some.inj heq)).2]
            exact hcut
  | .branch kind pipe list none, hp, h => by
    rw [Node.has] at h
    rw [Node.Parsed] at hp
    rw [walkNode, cutNode, Node.clean]
    cases hpipe : cmdsHas pipe with
    | true =>
      refine ⟨⟨?_, fun heq => nomatch heq⟩, fun hne => absurd rfl hne⟩
      rintro ⟨x, cut', -, hmeant⟩
      cases hmeant
    | false =>
      rw [hpipe, Bool.false_or] at h
      obtain ⟨hiff, hcut⟩ := walkNodes_of_has list hp.2 h
      rw [if_neg Bool.false_ne_true, if_neg Bool.false_ne_true, Bool.not_false, Bool.true_and,
        ← hiff]
      cases hwalk : walkNodes false list with
      | none =>
        refine ⟨⟨?_, ?_⟩, fun _ x cut heq => nomatch heq⟩
        · rintro ⟨x, cut, heq, -⟩
          cases heq
        · rintro ⟨x, cut, heq, -⟩
          cases heq
      | some r =>
        obtain ⟨list', cut⟩ := r
        refine ⟨⟨?_, ?_⟩, fun hne x cut' heq => ?_⟩
        · rintro ⟨x, cut', heq, hmeant⟩
          obtain ⟨rfl, -⟩ := Prod.mk.inj (Option.some.inj heq)
          refine ⟨list', cut, rfl, ?_⟩
          obtain ⟨n', hn', hsome⟩ := Option.map_eq_some_iff.mp hmeant
          obtain rfl := Option.some.inj hsome
          obtain ⟨list'', hlist, hbranch⟩ := Option.map_eq_some_iff.mp hn'
          rw [hlist, (Node.branch.inj hbranch).2.2.1]
        · rintro ⟨x, cut', heq, hmeant⟩
          obtain ⟨rfl, -⟩ := Prod.mk.inj (Option.some.inj heq)
          exact ⟨_, cut, rfl, by rw [hmeant]; rfl⟩
        · rw [← (Prod.mk.inj (Option.some.inj heq)).2]
          exact hcut (fun hnone => hne (by rw [hnone]; rfl)) list' cut hwalk
  | .branch kind pipe list (some elseList), hp, h => by
    rw [Node.has] at h
    rw [Node.Parsed] at hp
    rw [walkNode, cutNode, Node.clean]
    cases hpipe : cmdsHas pipe with
    | true =>
      refine ⟨⟨?_, fun heq => nomatch heq⟩, fun hne => absurd rfl hne⟩
      rintro ⟨x, cut', -, hmeant⟩
      cases hmeant
    | false =>
      rw [hpipe, Bool.false_or] at h
      rw [if_neg Bool.false_ne_true, if_neg Bool.false_ne_true, Bool.not_false, Bool.true_and]
      cases hlist : nodesHas list with
      | true =>
        -- the flag is set, so the assertion on the else list panics
        obtain ⟨-, hcut⟩ := walkNodes_of_has list hp.2.1 hlist
        have hpanic : cutNodes list ≠ none → ∀ x : Option Node × Bool, (do
              let (list', cut) ← walkNodes false list
              if cut then none
              else
                let (elseList', cut) ← walkNodes cut elseList
                pure (some (Node.branch kind pipe list' (some elseList')), cut)) ≠ some x := by
          intro hne x heq
          cases hwalk : walkNodes false list with
          | none =>
            rw [hwalk] at heq
            cases heq
          | some r =>
            obtain ⟨list', cut⟩ := r
            rw [hwalk, hcut hne list' cut hwalk] at heq
            cases heq
        refine ⟨⟨?_, fun heq => nomatch heq⟩, fun hne x cut heq => ?_⟩
        · rintro ⟨x, cut, heq, hmeant⟩
          refine (hpanic (fun hnone => ?_) _ heq).elim
          rw [hnone] at hmeant
          cases hmeant
        · exact absurd heq (hpanic (fun hnone => hne (by rw [hnone]; rfl)) _)
      | false =>
        rw [hlist, Bool.false_or] at h
        obtain ⟨hiff, hcut⟩ := walkNodes_of_has elseList hp.2.2 h
        rw [walkNodes_of_not_has list hp.2.1 hlist, if_neg Bool.false_ne_true,
          if_neg Bool.false_ne_true, ← hiff]
        show (Meant ((walkNodes false elseList).bind _) _ ↔ _) ∧
          (_ → ∀ x cut, (walkNodes false elseList).bind _ = _ → _)
        cases hwalk : walkNodes false elseList with
        | none =>
          refine ⟨⟨?_, ?_⟩, fun _ x cut heq => nomatch heq⟩
          · rintro ⟨x, cut, heq, -⟩
            cases heq
          · rintro ⟨x, cut, heq, -⟩
            cases heq
        | some r =>
          obtain ⟨elseList', cut⟩ := r
          refine ⟨⟨?_, ?_⟩, fun hne x cut' heq => ?_⟩
          · rintro ⟨x, cut', heq, hmeant⟩
            obtain ⟨rfl, -⟩ := Prod.mk.inj (Option.some.inj heq)
            refine ⟨elseList', cut, rfl, ?_⟩
            obtain ⟨n', hn', hsome⟩ := Option.map_eq_some_iff.mp hmeant
            obtain rfl := Option.some.inj hsome
            obtain ⟨else'', helse, hbranch⟩ := Option.map_eq_some_iff.mp hn'
            rw [helse, Option.some.inj (Node.branch.inj hbranch).2.2.2]
          · rintro ⟨x, cut', heq, hmeant⟩
            obtain ⟨rfl, -⟩ := Prod.mk.inj (Option.some.inj heq)
            exact ⟨_, cut, rfl, by rw [hmeant]; rfl⟩
          · rw [← (Prod.mk.inj (Option.some.inj heq)).2]
            exact hcut (fun hnone => hne (by rw [hnone]; rfl)) elseList' cut hwalk

theorem walkNodes_of_has : ∀ ns : List Node, nodesParsed ns → nodesHas ns = true →
    (Meant (walkNodes false ns) (cutNodes ns) ↔ nodesClean ns = true) ∧
      (cutNodes ns ≠ none → ∀ x cut, walkNodes false ns = some (x, cut) → cut = true)
  | [], _, h => by
    rw [nodesHas] at h
    cases h
  | n :: rest, hp, h => by
    rw [nodesHas] at h
    rw [nodesParsed] at hp
    rw [walkNodes, cutNodes, nodesClean]
    cases hn : n.has with
    | false =>
      rw [hn, Bool.false_or] at h
      obtain ⟨hiff, hcut⟩ := walkNodes_of_has rest hp.2 h
      rw [walkNode_of_not_has n hp.1 hn, if_neg Bool.false_ne_true, if_neg Bool.false_ne_true,
        ← hiff]
      show (Meant ((walkNodes false rest).bind _) _ ↔ _) ∧
        (_ → ∀ x cut, (walkNodes false rest).bind _ = _ → _)
      cases hwalk : walkNodes false rest with
      | none =>
        refine ⟨⟨?_, ?_⟩, fun _ x cut heq => nomatch heq⟩
        · rintro ⟨x, cut, heq, -⟩
          cases heq
        · rintro ⟨x, cut, heq, -⟩
          cases heq
      | some r =>
        obtain ⟨rest', cut⟩ := r
        refine ⟨⟨?_, ?_⟩, fun hne x cut' heq => ?_⟩
        · rintro ⟨x, cut', heq, hmeant⟩
          obtain ⟨rfl, -⟩ := Prod.mk.inj (Option.some.inj heq)
          obtain ⟨ns, hns, hcons⟩ := Option.map_eq_some_iff.mp hmeant
          exact ⟨rest', cut, rfl, hns.trans (congrArg some (List.cons.inj hcons).2)⟩
        · rintro ⟨x, cut', heq, hmeant⟩
          obtain ⟨rfl, -⟩ := Prod.mk.inj (Option.some.inj heq)
          exact ⟨_, cut, rfl, by rw [hmeant]; rfl⟩
        · rw [← (Prod.mk.inj (Option.some.inj heq)).2]
          exact hcut (fun hnone => hne (by rw [hnone]; rfl)) rest' cut hwalk
    | true =>
      obtain ⟨hiff, hcut⟩ := walkNode_of_has n hp.1 hn
      rw [if_pos rfl, if_pos rfl, ← hiff]
      cases hwalk : walkNode false n with
      | none =>
        refine ⟨⟨?_, ?_⟩, fun _ x cut heq => nomatch heq⟩
        · rintro ⟨x, cut, heq, -⟩
          cases heq
        · rintro ⟨x, cut, heq, -⟩
          cases heq
      | some r =>
        obtain ⟨n', cut⟩ := r
        cases hcutn : cutNode n with
        | none =>
          refine ⟨⟨?_, ?_⟩, fun hne => absurd rfl hne⟩
          · rintro ⟨x, cut', -, hmeant⟩
            cases hmeant
          · rintro ⟨x, cut', -, hmeant⟩
            cases hmeant
        | some meant =>
          obtain rfl := hcut (by rw [hcutn]; exact Option.some_ne_none _) n' cut hwalk
          show (Meant ((walkNodes true rest).bind _) _ ↔ _) ∧
            (_ → ∀ x cut, (walkNodes true rest).bind _ = _ → _)
          rw [walkNodes_true]
          refine ⟨⟨?_, ?_⟩, fun hne x cut' heq => ?_⟩
          · rintro ⟨x, cut', heq, hmeant⟩
            obtain ⟨rfl, -⟩ := Prod.mk.inj (Option.some.inj heq)
            refine ⟨n', true, rfl, ?_⟩
            have hlist := Option.some.inj hmeant
            rw [append_nil] at hlist
            cases n' with
            | none => cases hlist
            | some x =>
              rw [(List.cons.inj hlist).1]
              rfl
          · rintro ⟨x, cut', heq, hmeant⟩
            obtain ⟨rfl, -⟩ := Prod.mk.inj (Option.some.inj heq)
            obtain rfl := Option.some.inj hmeant
            exact ⟨_, true, rfl, rfl⟩
          · exact (Prod.mk.inj (Option.some.inj heq)).2.symm

end

theorem cutNodes_of_not_has (ns : List Node) (h : nodesHas ns = false) : cutNodes ns = some ns := by
  induction ns with
  | nil => rw [cutNodes]
  | cons n rest ih =>
    rw [nodesHas, Bool.or_eq_false_iff] at h
    rw [cutNodes, h.1, if_neg Bool.false_ne_true, ih h.2]
    rfl

theorem nodesClean_of_not_has (ns : List Node) (h : nodesHas ns = false) :
    nodesClean ns = true := by
  induction ns with
  | nil => rw [nodesClean]
  | cons n rest ih =>
    rw [nodesHas, Bool.or_eq_false_iff] at h
    rw [nodesClean, h.1, if_neg Bool.false_ne_true, ih h.2]

/-- **When the cut is the one that is meant**: exactly when it is clean. -/
theorem deleteNode_iff (root : List Node) (h : nodesParsed root) :
    CutAtResponse root ↔ nodesClean root = true := by
  cases hhas : nodesHas root with
  | false =>
    refine ⟨fun _ => nodesClean_of_not_has root hhas, fun _ => ?_⟩
    refine ⟨root, cutNodes_of_not_has root hhas, ?_⟩
    unfold deleteNode
    rw [walkNodes_of_not_has root h hhas]
    rfl
  | true =>
    rw [← (walkNodes_of_has root h hhas).1]
    unfold CutAtResponse deleteNode Meant
    constructor
    · rintro ⟨tree, hmeant, hwalk⟩
      obtain ⟨⟨x, cut⟩, hx, rfl⟩ := Option.map_eq_some_iff.mp hwalk
      exact ⟨x, cut, hx, hmeant⟩
    · rintro ⟨tree, cut, hwalk, hmeant⟩
      exact ⟨tree, hmeant, by rw [hwalk]; rfl⟩

/-- `{{ .Prompt }}{{ .Response }}<end>` -/
theorem cutAtResponse_plain : CutAtResponse [.action [[.field ["Prompt"]]],
    .action [[.field ["Response"]]], .leaf "<end>"] := by
  refine (deleteNode_iff _ ?_).mpr ?_
  · simp [nodesParsed, Node.Parsed, pipeParsed, cmdsParsed, argsParsed, Arg.Parsed]
  · simp [nodesClean, Node.has, cmdsHas, argsHas, Arg.has, Node.clean, cmdsClean, argsClean,
      Arg.clean]

/-- `{{ if .Prompt }}{{ .Response }}{{ else }}-{{ end }}` panics. -/
theorem else_list_panics : ¬∀ root : List Node, nodesParsed root → CutAtResponse root := by
  intro hall
  obtain ⟨tree, -, hwalk⟩ := hall [.branch .ifNode [[.field ["Prompt"]]]
    [.action [[.field ["Response"]]]] (some [.leaf "-"])]
    (by simp [nodesParsed, Node.Parsed, pipeParsed, cmdsParsed, argsParsed, Arg.Parsed])
  simp [deleteNode, walkNodes, walkNode, walkPipe, walkCmds, walkArgs, walkArg] at hwalk

end Ollama.Template
