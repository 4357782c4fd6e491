import Trackinizer.ListFilters
import Trackinizer.TraxGrammar

namespace Trackinizer.Lists

open Trax

/-- How a column's values compare; a JSONB or a boolean column has none of these. -/
inductive ColumnShape where
  | text
  | textArray
  | uuidArray
  | integer
  | real
  | rendered
  | timestamp
  | sessionRecord
  | parent
  deriving DecidableEq

/-- What a `ColumnSpec` of an inquiry class declares that a filter reads; the columns of one class
have it for their owner. -/
structure InquiryColumn where
  name : String
  owner : Option InquiryKind := none
  shape : Option ColumnShape
  required : Bool := false
  flattened : Bool := false
  listVerbStem : String := ""
  routeEditable : Bool := true

/-- The columns of `INQUIRY_CLASSES`, each flattened one by its axes. -/
def inquiryColumns : List InquiryColumn :=
  [{ name := "owner", shape := some .text },
    { name := "account", shape := some .text, required := true },
    { name := "status", shape := some .text, required := true },
    { name := "title", shape := some .text, required := true },
    { name := "description", shape := some .text },
    { name := "labels", shape := some .textArray, listVerbStem := "label" },
    { name := "marginal_cost_agent_usd", shape := some .real, flattened := true },
    { name := "marginal_cost_resource_usd", shape := some .real, flattened := true },
    { name := "subscribers", shape := some .textArray, listVerbStem := "subscriber" },
    { name := "app", shape := none },
    { name := "issue_kind", owner := some .issue, shape := some .textArray
      listVerbStem := "issue_kind" },
    { name := "validation", owner := some .issue, shape := some .text },
    { name := "priority", owner := some .issue, shape := some .integer },
    { name := "codechanges", owner := some .experiment, shape := some .uuidArray
      listVerbStem := "codechange" },
    { name := "outcome", owner := some .experiment, shape := some .text },
    { name := "config", owner := some .experiment, shape := none },
    { name := "abstract", owner := some .paper, shape := some .text },
    { name := "authors", owner := some .paper, shape := some .textArray, listVerbStem := "author" },
    { name := "publication_type", owner := some .paper, shape := some .text },
    { name := "venue", owner := some .paper, shape := some .text },
    { name := "subvenue", owner := some .paper, shape := some .text },
    { name := "publish_date", owner := some .paper, shape := some .timestamp },
    { name := "source", owner := some .paper, shape := some .text },
    { name := "google_scholar_cluster_id", owner := some .paper, shape := some .text },
    { name := "google_scholar_cites_id", owner := some .paper, shape := some .text },
    { name := "judgement", owner := some .belief, shape := some .text },
    { name := "confidence", owner := some .belief, shape := some .real },
    { name := "sha", owner := some .codeChange, shape := some .text },
    { name := "url", owner := some .webResult, shape := some .text },
    { name := "query", owner := some .webSearch, shape := some .text },
    { name := "provider", owner := some .webSearch, shape := some .text },
    { name := "cli", owner := some .agentSession, shape := some .text },
    { name := "cli_session_id", owner := some .agentSession, shape := some .text },
    { name := "started", owner := some .agentSession, shape := some .timestamp },
    { name := "ended", owner := some .agentSession, shape := some .timestamp
      routeEditable := false },
    { name := "rooms", owner := some .agentSession, shape := some .textArray
      listVerbStem := "room" },
    { name := "opened_by_api_key_id", owner := some .agentSession, shape := some .rendered },
    { name := "audience", owner := some .agentSession, shape := some .text, required := true
      routeEditable := false },
    { name := "read_group", owner := some .accessGroup, shape := some .rendered, required := true
      routeEditable := false },
    { name := "write_group", owner := some .accessGroup, shape := some .rendered, required := true
      routeEditable := false },
    { name := "system", owner := some .accessGroup, shape := none, required := true
      routeEditable := false },
    { name := "domain", owner := some .accessGroup, shape := some .text, routeEditable := false }]

/-- `storage_name`. -/
def InquiryColumn.storageName (column : InquiryColumn) : Text :=
  match column.owner with
  | none => column.name.toList
  | some owner =>
      let leading := kindWord owner ++ ['_']
      if leading.isPrefixOf column.name.toList then column.name.toList
      else leading ++ column.name.toList

/-- `_kind_specific_aliases`. -/
def kindSpecificAliases : List (Text × Text) :=
  inquiryColumns.flatMap fun column =>
    if column.storageName = column.name.toList then []
    else if column.listVerbStem = "" then [(column.name.toList, column.storageName)]
    else [(column.name.toList, column.storageName),
      (column.listVerbStem.toList, column.storageName)]

/-- `FILTER_FIELD_ALIASES`: a later entry of a name is the one that counts. -/
def filterFieldAliases : List (Text × Text) :=
  kindSpecificAliases.reverse ++
    [("kind".toList, "issue_kind".toList), ("issuekind".toList, "issue_kind".toList),
      ("label".toList, "labels".toList), ("subscriber".toList, "subscribers".toList),
      ("agent-cost".toList, "marginal_cost_agent_usd".toList),
      ("resource-cost".toList, "marginal_cost_resource_usd".toList)]

/-- `canonical_filter_field`. -/
def canonicalFilterField (field : Text) : Text :=
  (filterFieldAliases.lookup field).getD field

/-- `SESSION_RECORD_FIELDS`. -/
def sessionRecordFields : List Text :=
  ["user_message", "assistant_message", "thinking", "tool_call", "bash_result", "read_result",
    "write_result", "edit_result", "web_search_result", "web_fetch_result", "web_browser_result",
    "agent_spawn_result", "grep_result", "glob_result", "list_result", "skill_result",
    "agent_send_result", "background_task_result", "agent_self_result", "session_result",
    "memory_result", "play_audio_result", "paper_search_result", "paper_details_result",
    "paper_author_result", "paper_fetch_result", "remote_tool_result", "mcp_result",
    "function_result", "uncategorized_tool_result", "tool_error_result", "tool_result",
    "system_message", "context_state", "context_compaction", "agent_to_agent_message",
    "incomplete_record", "stdin", "stdout", "stderr"].map String.toList

/-- `COLUMN_SHAPES`, by column. -/
def columnShape (column : Text) : Option ColumnShape :=
  match inquiryColumns.find? fun c => decide (c.storageName = column) with
  | some c => c.shape
  | none =>
      if column = "kind".toList then some .text
      else if column = "seq".toList then some .integer
      else if column = "id".toList then some .rendered
      else if column = "created".toList ∨ column = "modified".toList then some .timestamp
      else if column ∈ sessionRecordFields then some .sessionRecord
      else if column = "narrows".toList then some .parent
      else none

/-- Whether a column is one of `FILTERABLE_COLUMNS`. -/
def filterableColumn (column : Text) : Bool :=
  (columnShape column).isSome || inquiryColumns.any fun c => decide (c.storageName = column)

/-- `NON_NULLABLE_COLUMNS`. -/
def nonNullableColumns : List Text :=
  ["id", "kind", "seq", "locked", "created", "modified"].map String.toList ++
    (inquiryColumns.filter fun c => (c.required && c.owner.isNone) || c.flattened).map
      InquiryColumn.storageName

/-- `field_owner_kind`: by bare field, the one kind that has it. -/
def fieldOwnerKind (field : Text) : Option Text :=
  (inquiryColumns.find? fun c => c.routeEditable && decide (c.name.toList = field)).bind fun c =>
    c.owner.map kindWord

/-- The bare columns of one kind: `_filterable_columns`. -/
def filterableColumns (kind : InquiryKind) : List Text :=
  ["seq", "id", "created", "modified"].map String.toList ++
    (inquiryColumns.filter fun c => c.owner.all fun owner => decide (owner = kind)).map fun c =>
      c.name.toList

/-- `FILTER_FIELDS_CLI`. -/
def filterFieldsCli (kind : InquiryKind) : List Text :=
  let nonFilterable := (fields.filter fun f => !f.filterable).map fun f => f.payloadKey.toList
  (filterableColumns kind).filter (fun column => decide (column ∉ nonFilterable)) ++
    ((fields.filter fun f => f.filterable &&
        decide (f.payloadKey.toList ∈ filterableColumns kind)).map fun f => f.cliName.toList) ++
    if kind = .agentSession then sessionRecordFields else []

end Trackinizer.Lists
