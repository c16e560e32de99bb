import Quantica.AliasKeys
import Quantica.AliasSpill
import Quantica.AliasRebuild
import Quantica.BtreeExchange
import Quantica.SlayFilled
import Quantica.SlayRoundTrip
import Quantica.MetadataFrame
import Quantica.Refusals
import Quantica.Reopen
import Quantica.WellFormed
import Quantica.HistoryVersions
import Quantica.JsonAccepted
import Quantica.DictMarshall
import Quantica.DictTokens
import Quantica.DictTree
import Quantica.DictRejects
import Quantica.JsonDecoded
import Quantica.JsonDenotes
import Quantica.JsonWritten
import Quantica.Lib.JsonReading
import Quantica.Csv
import Quantica.JsonOutput
import Quantica.PagerLarge
import Quantica.CrcFile
import Quantica.Vacuum
import Quantica.SetMeta
import Quantica.InsertedKey
import Quantica.InsertResult
import Quantica.PurgeNodata
import Quantica.SerializeRoom
import Quantica.RecordStatus
import Quantica.Condition
import Quantica.Merge
import Quantica.Equality
import Quantica.Projection
import Quantica.SlayMissing
import Quantica.Separate
import Quantica.IndexListDelete
import Quantica.IndexTable
import Quantica.HashTable
import Quantica.QuidTime
import Quantica.QuidFormat
import Quantica.Strtoken
import Quantica.ExplodeSql
import Quantica.Jwt
import Quantica.CsvRoom
import Quantica.Tokenize
import Quantica.QStack
import Quantica.QuidMemory
import Quantica.WebApi
import Quantica.BlockCache
import Quantica.BaseLists
import Quantica.BtreeShape
import Quantica.BtreeAccounts
import Quantica.TableAccounts
import Quantica.LockedRecords
import Quantica.ReferenceRuns
import Quantica.RecordTypes
import Quantica.AliasFlags
import Quantica.IndexSelect
