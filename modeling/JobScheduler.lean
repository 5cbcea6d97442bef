import JobScheduler.CronJobs
import JobScheduler.CronTexts
import JobScheduler.DistinctJobs
import JobScheduler.Json.Lookup
import JobScheduler.LiveIds
import JobScheduler.Responses
import JobScheduler.RetryCounting
import JobScheduler.RowRequests
import JobScheduler.Schedules
import JobScheduler.Statuses
import JobScheduler.Texts
import JobScheduler.Workers
