import Ims.Models
import Ims.Library.Tables

namespace Ims.Mongo

open Library.Tables Time Models

/-- A document of raw_signals. An ObjectId stands as the text str gives for it,
which the constructor ObjectId reads back. -/
structure Document where
  id : String
  componentId : String
  componentType : String
  severity : String
  timestamp : Datetime
  payload : String
  ingestedAt : Int
  workItemId : Option Int := none
  deriving DecidableEq, Repr

abbrev RawSignals := List Document

/-- The driver has put the _id into the document it was given, so a second call
with the same document meets the unique index on _id. -/
def insertSignal (signals : RawSignals) (doc : Document) : Except Exc RawSignals :=
  if doc.id ∈ signals.map Document.id then .error .duplicateKeyError else .ok (signals ++ [doc])

def setWorkItemId (signals : RawSignals) (mongoId : String) (workItemId : Int) :
    RawSignals :=
  updateWhere (fun doc => doc.id = mongoId) (fun doc => { doc with workItemId := some workItemId })
    signals

end Ims.Mongo
