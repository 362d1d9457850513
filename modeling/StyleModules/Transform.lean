import StyleModules.Diagnostic
import StyleModules.ImportLedger
import StyleModules.Stylesheet

/-!
# Transforms

A transform edits a stylesheet on its way to the bundle.  Transforms are grouped by stage and
run in the order they were added; the first one that fails ends its stage.  What a failing
transform has already changed stays changed.
-/

namespace StyleModules

/-- The news that a file was pulled into another one by `@import`. -/
structure ImportMessage where
  file : Path
  parent : Path
deriving DecidableEq, Inhabited, Repr

/-- What transforms write down across stylesheets. -/
structure Journal where
  imports : ImportLedger
  notes : List String
deriving DecidableEq, Inhabited, Repr

/-- A stylesheet that is being compiled, with all that its transforms can read and write. -/
structure Job where
  stylesheet : Stylesheet
  messages : List ImportMessage
  diagnostics : List Diagnostic
  journal : Journal
deriving Inhabited, Repr

/-- A named edit of a stylesheet, which can fail. -/
structure Transform where
  name : String
  run : Job → Job × Option Fault

/-- When a transform runs. -/
inductive Stage where
  /-- For each file, before its classes are renamed. -/
  | before
  /-- For each file, once the files it composes from are known. -/
  | processing
  /-- For each file, after its classes were renamed. -/
  | after
  /-- Once, for the whole bundle. -/
  | done
deriving DecidableEq, Inhabited, Repr

/-- Transforms by stage. -/
structure Pipeline where
  before : List Transform
  processing : List Transform
  after : List Transform
  done : List Transform

namespace Journal

def empty : Journal := ⟨.empty, []⟩

end Journal

namespace Job

/-- A stylesheet about which nothing was said so far. -/
def start (journal : Journal) (stylesheet : Stylesheet) : Job := ⟨stylesheet, [], [], journal⟩

def edit (f : Stylesheet → Stylesheet) (j : Job) : Job := { j with stylesheet := f j.stylesheet }

def warn (d : Diagnostic) (j : Job) : Job := { j with diagnostics := j.diagnostics ++ [d] }

def note (text : String) (j : Job) : Job :=
  { j with journal := { j.journal with notes := j.journal.notes ++ [text] } }

end Job

namespace Transform

/-- A transform that edits the stylesheet and never fails. -/
def ofEdit (name : String) (f : Stylesheet → Stylesheet) : Transform :=
  ⟨name, fun j ↦ (j.edit f, none)⟩

/-- Runs transforms one after the other until one fails. -/
def runAll : List Transform → Job → Job × Option Fault
  | [], j => (j, none)
  | t :: ts, j =>
    match t.run j with
    | (next, none) => runAll ts next
    | (next, some fault) => (next, some fault)

end Transform

namespace Pipeline

def empty : Pipeline := ⟨[], [], [], []⟩

instance : Inhabited Pipeline := ⟨empty⟩

/-- The transforms of a stage in the order they run. -/
def stage (p : Pipeline) : Stage → List Transform
  | .before => p.before
  | .processing => p.processing
  | .after => p.after
  | .done => p.done

def push (p : Pipeline) (s : Stage) (t : Transform) : Pipeline :=
  match s with
  | .before => { p with before := p.before ++ [t] }
  | .processing => { p with processing := p.processing ++ [t] }
  | .after => { p with after := p.after ++ [t] }
  | .done => { p with done := p.done ++ [t] }

/-- The transforms of each stage of `p`, followed by those of `q`. -/
def append (p q : Pipeline) : Pipeline :=
  ⟨p.before ++ q.before, p.processing ++ q.processing, p.after ++ q.after, p.done ++ q.done⟩

def run (p : Pipeline) (s : Stage) (j : Job) : Job × Option Fault :=
  Transform.runAll (p.stage s) j

end Pipeline

end StyleModules
