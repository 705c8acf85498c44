import MiniTsdb.Spec.RangeQuery
import MiniTsdb.Spec.SSTable

/-! The engine with its SSTables as the bytes of their files: every table is built, opened and
read through the reader that `Open` leaves. -/

namespace MiniTsdb
open Lib

def SSTable.openFile (t : SSTable) : Option SSTableReader :=
  (buildSSTable 4096 t.entries).bind fun file =>
    match SSTableReader.open file with
    | some (.ok reader) => some reader
    | _ => none

def ReaderRef.onFile (ref : ReaderRef) : Option FileRef :=
  ref.reader.table.openFile.map fun reader => ⟨ref.file, reader⟩

def ReadView.onFiles (view : ReadView) : FileView :=
  ⟨view.mem, view.imm, fun l => (view.levels l).filterMap ReaderRef.onFile, view.ttl_map⟩

def Store.readFile (s : Store) (fname : Bytes) : List Record :=
  match (openTable s.vmgr.db_dir s.dir fname).bind SSTable.openFile with
  | none => []
  | some reader => reader.rangeScanEntries sstScanFirst sstScanLast

end MiniTsdb
