import Trackinizer.Edges

namespace Trackinizer

/-- The audited `inquiries` columns, in `CHANGE_LOG_COLUMN_ORDER`. -/
inductive Column where
  | title | description | labels | owner | account | subscribers | status | beliefJudgement
  | beliefConfidence | issueKind | issueValidation | issuePriority | experimentOutcome
  | experimentConfig | paperAbstract | paperAuthors | paperPublicationType | paperVenue
  | paperSubvenue | paperPublishDate | paperSource | paperGoogleScholarClusterId
  | paperGoogleScholarCitesId | codechangeSha | webresultUrl | websearchQuery
  | websearchProvider | experimentCodechanges | agentsessionCli | agentsessionCliSessionId
  | agentsessionStarted | agentsessionEnded | agentsessionRooms | app
  | agentsessionAudience | accessgroupReadGroup | accessgroupWriteGroup
  deriving DecidableEq, Repr

/-- The flat storage name, which is also the column's change kind. -/
def Column.label : Column → String
  | .title => "title"
  | .description => "description"
  | .labels => "labels"
  | .owner => "owner"
  | .account => "account"
  | .subscribers => "subscribers"
  | .status => "status"
  | .beliefJudgement => "belief_judgement"
  | .beliefConfidence => "belief_confidence"
  | .issueKind => "issue_kind"
  | .issueValidation => "issue_validation"
  | .issuePriority => "issue_priority"
  | .experimentOutcome => "experiment_outcome"
  | .experimentConfig => "experiment_config"
  | .paperAbstract => "paper_abstract"
  | .paperAuthors => "paper_authors"
  | .paperPublicationType => "paper_publication_type"
  | .paperVenue => "paper_venue"
  | .paperSubvenue => "paper_subvenue"
  | .paperPublishDate => "paper_publish_date"
  | .paperSource => "paper_source"
  | .paperGoogleScholarClusterId => "paper_google_scholar_cluster_id"
  | .paperGoogleScholarCitesId => "paper_google_scholar_cites_id"
  | .codechangeSha => "codechange_sha"
  | .webresultUrl => "webresult_url"
  | .websearchQuery => "websearch_query"
  | .websearchProvider => "websearch_provider"
  | .experimentCodechanges => "experiment_codechanges"
  | .agentsessionCli => "agentsession_cli"
  | .agentsessionCliSessionId => "agentsession_cli_session_id"
  | .agentsessionStarted => "agentsession_started"
  | .agentsessionEnded => "agentsession_ended"
  | .agentsessionRooms => "agentsession_rooms"
  | .app => "app"
  | .agentsessionAudience => "agentsession_audience"
  | .accessgroupReadGroup => "accessgroup_read_group"
  | .accessgroupWriteGroup => "accessgroup_write_group"

/-- What a column cell holds; `null` is SQL `NULL`. -/
inductive Value where
  | null
  | text (t : Text)
  | texts (ts : List Text)
  | uuid (u : UUID)
  | uuids (us : List UUID)
  | int (n : Int)
  | float (x : PyFloat)
  | time (micros : Int)
  | json (document : Text)
  deriving DecidableEq

/-- `column or ()` for a text-array column. -/
def Value.asTexts : Value → List Text
  | .texts ts => ts
  | _ => []

def Value.asText? : Value → Option Text
  | .text t => some t
  | _ => none

def Value.asInt? : Value → Option Int
  | .int n => some n
  | _ => none

end Trackinizer
