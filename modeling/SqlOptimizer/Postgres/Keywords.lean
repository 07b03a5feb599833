import SqlOptimizer.Postgres.Scanner

/-!
The keywords of `kwlist.h`, and which words the grammar takes as a column, a function or
a type.
-/

set_option autoImplicit false
set_option relaxedAutoImplicit false

namespace SqlOptimizer.Postgres.Keywords

/-- `RESERVED_KEYWORD`. -/
def reserved : List String :=
  ["all", "analyse", "analyze", "and", "any", "array", "as", "asc", "asymmetric", "both",
    "case", "cast", "check", "collate", "column", "constraint", "create", "current_catalog",
    "current_date", "current_role", "current_time", "current_timestamp", "current_user",
    "default", "deferrable", "desc", "distinct", "do", "else", "end", "except", "false",
    "fetch", "for", "foreign", "from", "grant", "group", "having", "in", "initially",
    "intersect", "into", "lateral", "leading", "limit", "localtime", "localtimestamp", "not",
    "null", "offset", "on", "only", "or", "order", "placing", "primary", "references",
    "returning", "select", "session_user", "some", "symmetric", "table", "then", "to",
    "trailing", "true", "union", "unique", "user", "using", "variadic", "when", "where",
    "window", "with"]

/-- `TYPE_FUNC_NAME_KEYWORD`. -/
def typeFuncName : List String :=
  ["authorization", "binary", "collation", "concurrently", "cross", "current_schema",
    "freeze", "full", "ilike", "inner", "is", "isnull", "join", "left", "like", "natural",
    "notnull", "outer", "overlaps", "right", "similar", "tablesample", "verbose"]

/-- `COL_NAME_KEYWORD`. -/
def colName : List String :=
  ["between", "bigint", "bit", "boolean", "char", "character", "coalesce", "dec", "decimal",
    "exists", "extract", "float", "greatest", "grouping", "inout", "int", "integer",
    "interval", "least", "national", "nchar", "none", "normalize", "nullif", "numeric", "out",
    "overlay", "position", "precision", "real", "row", "setof", "smallint", "substring",
    "time", "timestamp", "treat", "trim", "values", "varchar", "xmlattributes", "xmlconcat",
    "xmlelement", "xmlexists", "xmlforest", "xmlnamespaces", "xmlparse", "xmlpi", "xmlroot",
    "xmlserialize", "xmltable"]

/-- `UNRESERVED_KEYWORD`. -/
def unreserved : List String :=
  ["abort", "absolute", "access", "action", "add", "admin", "after", "aggregate", "also",
    "alter", "always", "assertion", "assignment", "at", "attach", "attribute", "backward",
    "before", "begin", "by", "cache", "call", "called", "cascade", "cascaded", "catalog",
    "chain", "characteristics", "checkpoint", "class", "close", "cluster", "columns",
    "comment", "comments", "commit", "committed", "configuration", "conflict", "connection",
    "constraints", "content", "continue", "conversion", "copy", "cost", "csv", "cube",
    "current", "cursor", "cycle", "data", "database", "day", "deallocate", "declare",
    "defaults", "deferred", "definer", "delete", "delimiter", "delimiters", "depends",
    "detach", "dictionary", "disable", "discard", "document", "domain", "double", "drop",
    "each", "enable", "encoding", "encrypted", "enum", "escape", "event", "exclude",
    "excluding", "exclusive", "execute", "explain", "expression", "extension", "external",
    "family", "filter", "first", "following", "force", "forward", "function", "functions",
    "generated", "global", "granted", "groups", "handler", "header", "hold", "hour",
    "identity", "if", "immediate", "immutable", "implicit", "import", "include", "including",
    "increment", "index", "indexes", "inherit", "inherits", "inline", "input", "insensitive",
    "insert", "instead", "invoker", "isolation", "key", "label", "language", "large", "last",
    "leakproof", "level", "listen", "load", "local", "location", "lock", "locked", "logged",
    "mapping", "match", "materialized", "maxvalue", "method", "minute", "minvalue", "mode",
    "month", "move", "name", "names", "new", "next", "nfc", "nfd", "nfkc", "nfkd", "no",
    "normalized", "nothing", "notify", "nowait", "nulls", "object", "of", "off", "oids",
    "old", "operator", "option", "options", "ordinality", "others", "over", "overriding",
    "owned", "owner", "parallel", "parser", "partial", "partition", "passing", "password",
    "plans", "policy", "preceding", "prepare", "prepared", "preserve", "prior", "privileges",
    "procedural", "procedure", "procedures", "program", "publication", "quote", "range",
    "read", "reassign", "recheck", "recursive", "ref", "referencing", "refresh", "reindex",
    "relative", "release", "rename", "repeatable", "replace", "replica", "reset", "restart",
    "restrict", "returns", "revoke", "role", "rollback", "rollup", "routine", "routines",
    "rows", "rule", "savepoint", "schema", "schemas", "scroll", "search", "second",
    "security", "sequence", "sequences", "serializable", "server", "session", "set", "sets",
    "share", "show", "simple", "skip", "snapshot", "sql", "stable", "standalone", "start",
    "statement", "statistics", "stdin", "stdout", "storage", "stored", "strict", "strip",
    "subscription", "support", "sysid", "system", "tables", "tablespace", "temp", "template",
    "temporary", "text", "ties", "transaction", "transform", "trigger", "truncate", "trusted",
    "type", "types", "uescape", "unbounded", "uncommitted", "unencrypted", "unknown",
    "unlisten", "unlogged", "until", "update", "vacuum", "valid", "validate", "validator",
    "value", "varying", "version", "view", "views", "volatile", "whitespace", "within",
    "without", "work", "wrapper", "write", "xml", "year", "yes", "zone"]

/-- `ColId`. -/
def isColId (w : String) : Bool := w ∉ reserved && w ∉ typeFuncName

/-- The names of `func_name` that open an argument list; `operator (` starts a qualified
operator. -/
def isFunctionName (w : String) : Bool := w ∉ reserved && w ∉ colName && w ≠ "operator"

/-- The fields of `extract_arg` that are words. -/
def isExtractField (w : String) : Bool :=
  w ∈ ["year", "month", "day", "hour", "minute", "second"] ||
    (w ∉ reserved && w ∉ typeFuncName && w ∉ colName && w ∉ unreserved)

/-- The type of a constant that starts with the word: `ConstTypename` or `func_name`. -/
def typeOfWord (w : String) : Option String :=
  if w ∈ ["int", "integer"] then some "int4"
  else if w = "smallint" then some "int2"
  else if w = "bigint" then some "int8"
  else if w = "real" then some "float4"
  else if w = "float" then some "float8"
  else if w ∈ ["dec", "decimal", "numeric"] then some "numeric"
  else if w = "boolean" then some "bool"
  else if w ∈ ["char", "character", "nchar"] then some "bpchar"
  else if w ∈ ["bit", "varchar", "time", "timestamp", "interval"] then some w
  else if w ∈ reserved || w ∈ colName then none
  else some w

/-- `opt_interval`: a field and its `INTERVAL_MASK`. -/
def intervalMask (w : String) : Option Int :=
  match w with
  | "year" => some 4
  | "month" => some 2
  | "day" => some 8
  | "hour" => some 1024
  | "minute" => some 2048
  | "second" => some 4096
  | _ => none

/-- The words that an operand behind a generic operator cannot start with: there the
operator ends its operand, since these words bind weaker than a postfix operator. -/
def afterPostfix : List String :=
  ["between", "escape", "ilike", "is", "isnull", "like", "notnull", "similar"]

end SqlOptimizer.Postgres.Keywords
