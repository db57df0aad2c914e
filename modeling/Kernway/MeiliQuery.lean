import Kernway.OrmSpec

namespace Kernway

/-- `replace('"', "\\\"")`. -/
def escapeQuotes (value : Text) : Text :=
  value.flatMap fun c => if c = '"' then ['\\', '"'] else [c]

structure MeilisearchQueryBuilder where
  filters : List Text := []
  searchQuery : Option Text := none
  sort : List Text := []
  limit : Option UInt64 := none
  offset : UInt64 := 0

def CompareOp.meiliText : CompareOp → Text
  | eq => " = ".toList
  | ne => " != ".toList
  | gt => " > ".toList
  | lt => " < ".toList
  | gte => " >= ".toList
  | lte => " <= ".toList

namespace MeilisearchQueryBuilder

/-- A value as it is written into a filter: as it is where it parses as a number, else in quotes. -/
def quote (value : Text) : Text :=
  if (parseF64 value).isSome then value else '"' :: escapeQuotes value ++ ['"']

def quoteList (values : List Text) : Text := ", ".toList.intercalate (values.map quote)

def comparisonText (op : CompareOp) (field value : Text) : Text :=
  field ++ op.meiliText ++ quote value

def inText (field : Text) (values : List Text) : Text :=
  field ++ " IN [".toList ++ quoteList values ++ "]".toList

/-- The bounds are written as they are. -/
def betweenText (field lo hi : Text) : Text := field ++ " ".toList ++ lo ++ " TO ".toList ++ hi

def nullText (field : Text) : Text := field ++ " IS NULL".toList

def notNullText (field : Text) : Text := field ++ " IS NOT NULL".toList

/-- `spec_to_meili`; its `q` is a copy of `quote`. -/
def specToMeili : Spec → Text
  | .compare op f v => comparisonText op f v
  | .like f v => f ++ " CONTAINS ".toList ++ quote v
  | .in_ f vs => inText f vs
  | .between f lo hi => betweenText f lo hi
  | .isNull f => nullText f
  | .isNotNull f => notNullText f
  | .and a b => "(".toList ++ specToMeili a ++ " AND ".toList ++ specToMeili b ++ ")".toList
  | .or a b => "(".toList ++ specToMeili a ++ " OR ".toList ++ specToMeili b ++ ")".toList
  | .not a => "NOT (".toList ++ specToMeili a ++ ")".toList

def push (b : MeilisearchQueryBuilder) (fragment : Text) : MeilisearchQueryBuilder :=
  { b with filters := b.filters ++ [fragment] }

/-- A pattern is no filter but the full-text query. -/
def call (b : MeilisearchQueryBuilder) : QueryCall → MeilisearchQueryBuilder
  | .compare op f v => b.push (comparisonText op f v)
  | .like _ pattern => { b with searchQuery := some pattern }
  | .in_ f vs => b.push (inText f vs)
  | .between f lo hi => b.push (betweenText f lo hi)
  | .isNull f => b.push (nullText f)
  | .isNotNull f => b.push (notNullText f)
  | .spec s => b.push (specToMeili s)
  | .orderByAsc f => { b with sort := b.sort ++ [f ++ ":asc".toList] }
  | .orderByDesc f => { b with sort := b.sort ++ [f ++ ":desc".toList] }
  | .limit n => { b with limit := some n }
  | .offset n => { b with offset := n }
  | .with_ _ => b

def build (calls : List QueryCall) : MeilisearchQueryBuilder := calls.foldl call {}

def buildFilter (b : MeilisearchQueryBuilder) : Option Text :=
  if b.filters.isEmpty then none else some (" AND ".toList.intercalate b.filters)

end MeilisearchQueryBuilder

end Kernway
