import AsmCheck.Analysis
import AsmCheck.Error
import Std.Data.ExtTreeMap

/-! # A store of documents

    The latest version of each open document, with its analysis under the
    current settings.  An update that comes late, when a newer version is
    stored already, is dropped.  New settings are applied to every document at
    once. -/

namespace AsmCheck

/-- One version of a document. -/
structure Document where
  version : Int
  text : String
  analysis : Analysis
deriving DecidableEq

/-- The open documents and the settings they are analysed with. -/
structure Store where
  config : Config := {}
  documents : Std.ExtTreeMap String Document := ∅

namespace Store

/-- A store without documents, if the settings can be used. -/
def ofConfig (config : Config) : Except Error Store :=
  match config.validate with
  | .ok () => .ok { config }
  | .error why => .error (.config why)

/-- The stored version of a document. -/
def get? (s : Store) (uri : String) : Option Document :=
  s.documents[uri]?

/-- Whether a version comes late. -/
def isStale (s : Store) (uri : String) (version : Int) : Bool :=
  (s.get? uri).any fun d => version < d.version

/-- Stores a version of a document, unless a newer one is stored, and gives its analysis. -/
def update (s : Store) (uri : String) (version : Int) (text : String) :
    Except Error (Store × Option Analysis) :=
  match Analysis.ofSource text s.config with
  | .error why => .error (.config why)
  | .ok analysis =>
    if s.isStale uri version then .ok (s, none)
    else
      .ok ({ s with documents := s.documents.insert uri { version, text, analysis } },
        some analysis)

/-- The analysis of an open document. -/
def analysis (s : Store) (uri : String) : Except Error Analysis :=
  match s.get? uri with
  | some d => .ok d.analysis
  | none => .error (.unknownDocument uri)

/-- Forgets a document; also says whether it was open. -/
def close (s : Store) (uri : String) : Store × Bool :=
  ({ s with documents := s.documents.erase uri }, (s.get? uri).isSome)

/-- The names of the open documents, in the order of their characters. -/
def uris (s : Store) : List String :=
  s.documents.keys

/-- How many documents are open. -/
def size (s : Store) : Nat :=
  s.documents.size

/-- Whether no document is open. -/
def isEmpty (s : Store) : Bool :=
  s.documents.isEmpty

/-- Changes the settings, if they can be used, and analyses every document anew. -/
def setConfig (s : Store) (config : Config) : Except Error Store :=
  match config.validate with
  | .error why => .error (.config why)
  | .ok () =>
    .ok
      { config
        documents := s.documents.map fun _ d =>
          { d with analysis := Analysis.ofText d.text config } }

end Store

end AsmCheck
