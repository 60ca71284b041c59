import BoogyDb.Row
import Mathlib.Logic.Function.Basic

/-!
# Tables and their schemas

`TableMeta` is what the engine keeps in memory about a table.  A column is known
by its position, its `col_id`; a dropped column keeps its position and gives up
its name.  The map from names to positions holds the live columns.

Tables are unencrypted here, so `check_table_accessible` lets every call pass.
-/

namespace BoogyDb

structure ColumnDef where
  name : String
  colType : ColumnType
  nullable : Bool
  unique : Bool
  /-- What a row that does not have the column reads as; `none` is `Null`. -/
  default : Option Value
  /-- A dropped column keeps its slot. -/
  dropped : Bool
deriving DecidableEq

structure IndexMeta where
  name : String
  /-- The columns of the key, in key order. -/
  columns : List String
  unique : Bool
  rootPage : ℕ
deriving DecidableEq

structure TableMeta where
  name : String
  tableId : UInt32
  columns : List ColumnDef
  colNameToId : String → Option UInt16
  /-- The names by position. -/
  colNames : List String
  /-- A copy of the columns that rows are read with. -/
  colDefs : List ColumnDef
  rootPage : ℕ
  rowCount : UInt64
  nextRowid : UInt64
  indexes : List IndexMeta

namespace TableMeta

/-- The map that takes each live name to the last position it stands at. -/
def liveNames (columns : List ColumnDef) : String → Option UInt16 :=
  columns.zipIdx.foldl (fun names c =>
    if c.1.dropped then names
    else Function.update names c.1.name (some (UInt16.ofNat c.2))) fun _ => none

def new (name : String) (tableId : UInt32) (columns : List ColumnDef) (rootPage : ℕ) :
    TableMeta where
  name
  tableId
  columns
  colNameToId := liveNames columns
  colNames := columns.map ColumnDef.name
  colDefs := columns
  rootPage
  rowCount := 0
  nextRowid := 1
  indexes := []

def colId (self : TableMeta) (name : String) : Option UInt16 := self.colNameToId name

def findIndex (self : TableMeta) (name : String) : Option IndexMeta :=
  self.indexes.find? fun idx => idx.name = name

/-- An index whose leading column is `column`. -/
def findIndexForColumn (self : TableMeta) (column : String) : Option IndexMeta :=
  self.indexes.find? fun idx => idx.columns.head? = some column

/-- The type of the first column with this name, dropped or not. -/
def firstType (self : TableMeta) (name : String) : Option ColumnType :=
  (self.columns.find? fun c => c.name = name).map ColumnDef.colType

def addColumn (self : TableMeta) (col : ColumnDef) : TableMeta :=
  { self with
    colNameToId := Function.update self.colNameToId col.name
      (some (UInt16.ofNat self.columns.length))
    colNames := self.colNames ++ [col.name]
    columns := self.columns ++ [col]
    colDefs := self.columns ++ [col] }

/-- Tombstone a live column. -/
def dropColumn (self : TableMeta) (name : String) : TableMeta :=
  match self.colNameToId name with
  | none => self
  | some colId =>
    let columns := self.columns.modify colId.toNat fun c => { c with dropped := true }
    { self with
      colNameToId := Function.update self.colNameToId name none
      columns
      colDefs := columns }

/-- Rename a live column; it keeps its position. -/
def renameColumn (self : TableMeta) (old new : String) : TableMeta :=
  match self.colNameToId old with
  | none => self
  | some colId =>
    let columns := self.columns.modify colId.toNat fun c => { c with name := new }
    { self with
      colNameToId := Function.update (Function.update self.colNameToId old none) new (some colId)
      columns
      colNames := self.colNames.set colId.toNat new
      colDefs := columns }

end TableMeta

end BoogyDb
